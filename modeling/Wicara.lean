import Wicara.Lib.Encoding
import Wicara.Lib.HashChain
import Wicara.Lib.Run
import Wicara.Lib.Fallible
import Wicara.Lib.Interleaving
import Wicara.Lib.Table
import Wicara.Lib.Arrange
import Wicara.Lib.Text
import Wicara.Lib.Queues
import Wicara.Lib.Disk
import Wicara.Lib.Streams
import Wicara.Lib.Viewport
import Wicara.Lib.Replicas
import Wicara.Lib.Utf8
import Wicara.Lib.Refinement
import Wicara.Core.Bytes
import Wicara.Core.Room
import Wicara.Core.RoomLaws
import Wicara.Core.RoomMembership
import Wicara.Core.RoomCommitment
import Wicara.Core.Book
import Wicara.Core.Sample
import Wicara.Core.E2e
import Wicara.Core.Prekey
import Wicara.Core.Hex
import Wicara.Core.Vault
import Wicara.Core.Transcripts
import Wicara.Core.Envelopes
import Wicara.Core.Wire
import Wicara.Core.Framing
import Wicara.Client.Store
import Wicara.Client.Events
import Wicara.Client.History
import Wicara.Client.App
import Wicara.Client.Hub
import Wicara.Client.Rooms
import Wicara.Client.Mirror
import Wicara.Client.RoomRuns
import Wicara.Client.Sidebar
import Wicara.Hub.Rooms
import Wicara.Hub.Registry
import Wicara.Hub.Mail
import Wicara.Hub.MailTasks
import Wicara.Hub.RowIds
import Wicara.Hub.Queues
import Wicara.Hub.Quotas
import Wicara.Hub.Drain
import Wicara.Hub.Replays
import Wicara.Hub.Prekeys
import Wicara.Client.Replacement
import Wicara.Client.Delivery
import Wicara.Client.Append
import Wicara.Client.Wrapping
import Wicara.Client.RoomTasks
import Wicara.Client.Files
import Wicara.Client.Landing
import Wicara.Client.FileTasks
import Wicara.Client.Ledger
import Wicara.Client.Provenance
import Wicara.Client.Arrival
import Wicara.Client.Sessions
import Wicara.Client.SessionSteps
import Wicara.Client.NetRuns
import Wicara.Client.Cleanup
import Wicara.Client.Overlap
import Wicara.Client.Broadcast
import Wicara.Client.Mailbox
import Wicara.Client.Mailing
import Wicara.Client.Folding
import Wicara.Client.Convergence
import Wicara.Client.Clock
import Wicara.Client.Deletion
import Wicara.Client.Authors
import Wicara.Client.Reactions
import Wicara.Client.Removal
import Wicara.Client.Minting
import Wicara.Client.Transfers
import Wicara.Client.Attachments
import Wicara.Client.TransferRuns
import Wicara.Client.Downloads
import Wicara.Client.Outgoing
import Wicara.Client.Intake
import Wicara.Client.Dispatch
import Wicara.Client.StoreTasks
import Wicara.Client.Names
import Wicara.Client.Forgetting
import Wicara.Client.Contacts
import Wicara.Client.SealedStore
import Wicara.Client.Unsealing
import Wicara.Client.SealedRuns
import Wicara.Client.Identity
import Wicara.Client.Lifetime
import Wicara.Client.DisplayOrder
import Wicara.Client.Network
import Wicara.Client.Handing
import Wicara.Client.NetworkSteps
import Wicara.Client.Viewpoints
import Wicara.Client.Talks
import Wicara.Client.Agreement
import Wicara.Ui.State
import Wicara.Ui.Handlers
import Wicara.Ui.Effects
import Wicara.Ui.Steps
import Wicara.Ui.Selection
import Wicara.Ui.Pending
import Wicara.Ui.Bounds
import Wicara.Ui.Listing
import Wicara.Ui.Refold
import Wicara.Ui.Unread
import Wicara.Ui.Screen
import Wicara.Ui.Calls
import Wicara.Ui.Episodes
import Wicara.Ui.Logs
import Wicara.Ui.Wrap
import Wicara.Ui.Chat
import Wicara.Ui.Scroll
