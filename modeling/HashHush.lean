import HashHush.Concurrency.Program
import HashHush.Concurrency.Interleaving
import HashHush.Concurrency.EventLoop
import HashHush.Concurrency.Reactive
import HashHush.Concurrency.Simulation
import HashHush.Concurrency.Object
import HashHush.Util.Text
import HashHush.Util.Sha256
import HashHush.Util.Codec
import HashHush.Database
import HashHush.Json
import HashHush.Config
import HashHush.Room
import HashHush.Captcha
import HashHush.Ini
import HashHush.Operations
import HashHush.Handlers
import HashHush.Server
import HashHush.Dialogue
import HashHush.Delivery
import HashHush.Properties.Admission
import HashHush.Properties.Capacity
import HashHush.Properties.Lifetime
import HashHush.Properties.Deletion
import HashHush.Properties.MessageCache
import HashHush.Properties.Purge
import HashHush.Properties.Isolation
import HashHush.Properties.FrameHandling
import HashHush.Properties.OneAttempt
import HashHush.Properties.Credentials
import HashHush.Properties.CloseOrder
import HashHush.Properties.StoredKey
import HashHush.Properties.StoredToken
import HashHush.Properties.ChatRecovery
import HashHush.Properties.ChatFinality
import HashHush.Properties.Handshake
import HashHush.Web.Crypto
import HashHush.Web.Storage
import HashHush.Web.ChatClient
import HashHush.Web.ChatView
import HashHush.Web.Browser
import HashHush.Web.Transcript
import HashHush.Web.Home
import HashHush.Properties.Activation
import HashHush.Properties.PowSingleUse
import HashHush.Properties.RoomsCap
import HashHush.Properties.Registry
import HashHush.Properties.Replay
import HashHush.Properties.Membership
import HashHush.Properties.Verification
import HashHush.Util.BigEndian
import HashHush.Util.MerkleDamgard
import HashHush.Web.JsString
import HashHush.Web.Pow
import HashHush.Properties.PowCompleteness
import HashHush.Util.Mt19937
import HashHush.Properties.TokenSecrecy
import HashHush.Statements
import HashHush.Properties.Transactions
import HashHush.Properties.ReadBack
import HashHush.Util.Utf8
import HashHush.Properties.RoomName
import HashHush.Util.Fnv
import HashHush.Properties.EntityTag
import HashHush.Properties.Base64
import HashHush.Properties.KeyDerivation
import HashHush.Properties.HexCodec
import HashHush.Properties.InviteLink
import HashHush.Properties.PayloadRoundTrip
import HashHush.Properties.Oblivious
import HashHush.Properties.SenderOrder
import HashHush.Properties.Conversation
import HashHush.Properties.ChallengeQueue
import HashHush.Properties.HttpContract
import HashHush.Properties.DeletionAuthority
import HashHush.Properties.TokenDurability
import HashHush.Properties.Transcript
import HashHush.Properties.HashChain
import HashHush.Properties.ConfigFile
import HashHush.Properties.PowSearch
import HashHush.Properties.Activity
