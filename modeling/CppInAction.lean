import CppInAction.HttpResponse
import CppInAction.HttpResume
import CppInAction.HttpSlot
import CppInAction.ServerCount
import CppInAction.ServerClose
import CppInAction.ServerHandsOn
import CppInAction.ServerExclusive
import CppInAction.ThreadPool
import CppInAction.ConnectionPool
import CppInAction.BlockQueueFront
import CppInAction.LogDates
import CppInAction.Assoc
import CppInAction.Registrations
import CppInAction.WaitLoop
import CppInAction.LruStack
import CppInAction.SharedPtrRuns
import CppInAction.TimerExpiry
import CppInAction.HttpScan
import CppInAction.HttpContent
import CppInAction.HttpRead
import CppInAction.HttpForm
import CppInAction.HttpRoot
import CppInAction.HttpAbsolute
import CppInAction.HttpEnds
import CppInAction.FFTaskRuns
import CppInAction.XExec
import CppInAction.FFKey
import CppInAction.OpServer
import CppInAction.XConfig
import CppInAction.MultiThreadCal
import CppInAction.EchoClient
import CppInAction.EchoMpServer
import CppInAction.SelectServer
import CppInAction.RandomList
import CppInAction.HttpLineFrame
import CppInAction.HttpAppend
import CppInAction.StlIterator
import CppInAction.SplayRuns
import CppInAction.QueueKinds
import CppInAction.SignalRuns
import CppInAction.FreeLists
import CppInAction.EchoStore
import CppInAction.NewsSender
import CppInAction.LogFactory
import CppInAction.CondQueue
import CppInAction.StlUtil
import CppInAction.OpServerBad
import CppInAction.FileTransfer
import CppInAction.MultiProcessRuns
