import TintempPlusPlus.Library.EventRuns
import TintempPlusPlus.Library.ScanLoop
import TintempPlusPlus.Library.OneEntry
import TintempPlusPlus.Library.Occurrences
import TintempPlusPlus.Discord
import TintempPlusPlus.UniqueID
import TintempPlusPlus.Ttt
import TintempPlusPlus.Handlers
import TintempPlusPlus.Program
import TintempPlusPlus.Library.AlternatingMarks
import TintempPlusPlus.BoardLaws
import TintempPlusPlus.Play
import TintempPlusPlus.HandlerLaws
import TintempPlusPlus.Invariant
import TintempPlusPlus.Steps
import TintempPlusPlus.Reachable
import TintempPlusPlus.Views
import TintempPlusPlus.Lives
import TintempPlusPlus.Consent
import TintempPlusPlus.Frozen
import TintempPlusPlus.TurnDiscipline
import TintempPlusPlus.Outcome
import TintempPlusPlus.Handles
import TintempPlusPlus.Deployment
import TintempPlusPlus.Independence
import TintempPlusPlus.Endings
import TintempPlusPlus.Announcement
import TintempPlusPlus.Display
import TintempPlusPlus.Frame
import TintempPlusPlus.Histories
import TintempPlusPlus.Permanence
import TintempPlusPlus.LiveList
import TintempPlusPlus.StartedGames
import TintempPlusPlus.AllOrNothing
import TintempPlusPlus.Rendering
import TintempPlusPlus.Counter
import TintempPlusPlus.Identifiers
import TintempPlusPlus.DisabledButtons
import TintempPlusPlus.Origins
import TintempPlusPlus.OriginEmbeds
import TintempPlusPlus.Deletion
import TintempPlusPlus.Library.FormatString
import TintempPlusPlus.Logger
import TintempPlusPlus.Library.EcmaRegex
import TintempPlusPlus.Library.EcmaPattern
import TintempPlusPlus.Commands
import TintempPlusPlus.Library.LineGame
import TintempPlusPlus.Library.AcceptedRecords
import TintempPlusPlus.Matches
import TintempPlusPlus.Records
import TintempPlusPlus.Access
import TintempPlusPlus.Blocking
import TintempPlusPlus.Progress
import TintempPlusPlus.FairPlay
import TintempPlusPlus.Hosting
import TintempPlusPlus.Library.Potential
import TintempPlusPlus.Budget
import TintempPlusPlus.Warrants
import TintempPlusPlus.Validity
import TintempPlusPlus.Deliveries
import TintempPlusPlus.Library.Terminal
import TintempPlusPlus.Reporting
import TintempPlusPlus.Dispatch
import TintempPlusPlus.Library.Interruptions
import TintempPlusPlus.Narration
