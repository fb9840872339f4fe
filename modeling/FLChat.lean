import FLChat.Realtime.Counting
import FLChat.Messages.Transcript
import FLChat.Messages.Pictures
import FLChat.Messages.Visibility
import FLChat.Messages.Author
import FLChat.Messages.Reload
import FLChat.Messages.Rows
import FLChat.Friends.FriendsList
import FLChat.Friends.Consent
import FLChat.Friends.Clearing
import FLChat.Friends.SearchBox
import FLChat.Friends.RequestOnce
import FLChat.Friends.Directions
import FLChat.Accounts.SignIn
import FLChat.Accounts.Directory
import FLChat.Accounts.Edits
import FLChat.Realtime.Store
import FLChat.Realtime.Pending
import FLChat.Realtime.Values
import FLChat.Realtime.Founded
import FLChat.Realtime.Reading
import FLChat.Realtime.Copying
import FLChat.Sessions.Copies
import FLChat.Sessions.Search
import FLChat.Sessions.Emails
import FLChat.Images.LastRequest
import FLChat.Realtime.Settling
import FLChat.Messages.Settling
import FLChat.Friends.Settling
import FLChat.Sessions.Settling
import FLChat.Realtime.FrontEnd
import FLChat.Messages.Composer
import FLChat.Messages.Crashes
import FLChat.Messages.Cells
import FLChat.Realtime.Component
import FLChat.Sessions.Parts
import FLChat.Sessions.AccountPart
import FLChat.Sessions.FriendPart
import FLChat.Sessions.OneAccount
import FLChat.Sessions.FriendRuns
import FLChat.Realtime.Relabel
import FLChat.Accounts.LoginForm
import FLChat.Accounts.NewAccounts
import FLChat.Keys.Ascending
import FLChat.Keys.Drawing
import FLChat.Messages.SendOrder
