import IstKvs.Store.Map
import IstKvs.Store.Batch
import IstKvs.Store.LockOrder
import IstKvs.Store.KeyLists
import IstKvs.Store.LockFailures
import IstKvs.Store.Allocation
import IstKvs.Sessions.Agreement
import IstKvs.Sessions.Indexing
import IstKvs.Sessions.Notices
import IstKvs.Sessions.Slots
import IstKvs.Sessions.Failures
import IstKvs.Sessions.Handles
import IstKvs.Host.Tokens
import IstKvs.Host.Arrivals
import IstKvs.Server.Notifications
import IstKvs.Server.Teardown
import IstKvs.Server.Messages
import IstKvs.Server.Forking
import IstKvs.Backups.Contents
import IstKvs.Backups.Exclusion
import IstKvs.Backups.Counter
import IstKvs.Jobs.Printer
import IstKvs.Jobs.Recovery
import IstKvs.Jobs.Listing
import IstKvs.Jobs.ShowOrder
import IstKvs.Jobs.Sentinels
import IstKvs.Jobs.Directory
import IstKvs.Jobs.Acceptance
import IstKvs.Jobs.Numbers
import IstKvs.Client.Disconnect
import IstKvs.Client.Paths
import IstKvs.Client.Session
import IstKvs.Client.Lists
import IstKvs.Backups.Lines
import IstKvs.Backups.Names
import IstKvs.Jobs.StringStores
import IstKvs.Host.Connects
import IstKvs.Client.Notifier
import IstKvs.ProjP1.Table
import IstKvs.Memory.Sessions
import IstKvs.Jobs.Orders
import IstKvs.Client.Dialogue
import IstKvs.Host.Handshake
import IstKvs.Host.Meeting
