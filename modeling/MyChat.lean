import MyChat.Lib.PathTree
import MyChat.Lib.Overlay
import MyChat.Lib.SortedList
import MyChat.Lib.NetChange
import MyChat.Lib.CounterTable
import MyChat.Lib.Transition
import MyChat.Lib.Interleave
import MyChat.Lib.Avoids
import MyChat.Lib.Watch
import MyChat.Lib.Pieces
import MyChat.Firebase
import MyChat.DataClass
import MyChat.Process
import MyChat.App
import MyChat.Outcome
import MyChat.System
import MyChat.Records
import MyChat.Contract
import MyChat.Issued
import MyChat.Flushed
import MyChat.Conversation
import MyChat.Routing
import MyChat.RecordIdentity
import MyChat.AccountIsolation
import MyChat.MessageMirror
import MyChat.RowMessage
import MyChat.RowAgreement
import MyChat.CreateIfAbsent
import MyChat.LoginIdentity
import MyChat.NoTrap
import MyChat.SendAtomicity
import MyChat.Client
import MyChat.ListDelivery
import MyChat.CreateOnce
import MyChat.RequestOnce
import MyChat.RoundTrip
import MyChat.AddFriend
import MyChat.LoginReply
import MyChat.ChatTable
import MyChat.MessState
import MyChat.MessageCell
import MyChat.OpenChat
import MyChat.ChatId
import MyChat.PhotoHelper
import MyChat.Keys
import MyChat.Node
import MyChat.LLRBNode
import MyChat.LLRBRemove
import MyChat.SortedDictionary
import MyChat.CompoundWrite
import MyChat.WriteTree
import MyChat.EventCache
import MyChat.ChildChanges
import MyChat.ViewProcessor
import MyChat.ViewTracks
import MyChat.ViewCache
import MyChat.ViewContents
import MyChat.SyncTree
import MyChat.ViewEvents
import MyChat.SyncPoints
import MyChat.SyncTraversal
import MyChat.SyncContents
import MyChat.SyncListens
import MyChat.Repo
import MyChat.Session
import MyChat.Connection
import MyChat.Online
