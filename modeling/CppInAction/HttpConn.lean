import CppInAction.CMemory

namespace CppInAction

def fileNameLen : Nat := 200
def readBufferSize : Nat := 2048
def writeBufferSize : Nat := 1024

inductive Method
  | get | post | head | put | delete | trace | options | connect | path
deriving DecidableEq, Repr

inductive CheckState
  | requestLine | header | content
deriving DecidableEq, Repr

inductive HttpCode
  | noRequest | getRequest | badRequest | noResource | forbiddenRequest | fileRequest
  | internalError | closedConnection
deriving DecidableEq, Repr

inductive LineStatus
  | lineOk | lineBad | lineOpen
deriving DecidableEq, Repr

/-- The epoll interest a descriptor is armed with. -/
inductive Ev
  | epollin | epollout
deriving DecidableEq, Repr

/-- A char pointer member: null, never assigned, or into the read buffer. -/
inductive CharPtr
  | null | wild | into (off : Nat)
deriving DecidableEq, Repr

/-- The result of mmap kept in m_file_address. -/
inductive FileAddress
  | null | wild | failed | mapped (content : List UInt8)
deriving DecidableEq

/-- The part of struct stat that the server reads. -/
structure FileStat where
  othersRead : Bool
  isDir : Bool
  size : Nat
deriving DecidableEq, Repr

/-- Where an iovec entry points: into m_write_buf or relative to m_file_address. -/
inductive IoBase
  | wild | writeBuf (off : Int) | file (off : Int)
deriving DecidableEq, Repr

structure IoVec where
  base : IoBase
  len : Nat
deriving DecidableEq, Repr

/-- One connection object; a value that no init has touched is arbitrary. -/
structure HttpConn where
  timerFlag : Int
  improv : Int
  state : Int
  sockfd : Int
  readBuf : Buffer readBufferSize
  readIdx : Int
  checkedIdx : Nat
  startLine : Nat
  writeBuf : Buffer writeBufferSize
  writeIdx : Nat
  checkState : CheckState
  method : Method
  realFile : Buffer fileNameLen
  url : CharPtr
  version : CharPtr
  host : CharPtr
  contentLength : Int
  linger : Bool
  fileAddress : FileAddress
  fileStat : FileStat
  iovec0 : IoVec
  iovec1 : IoVec
  iovecCount : Int
  cgi : Int
  string : CharPtr
  bytesToSend : Int
  bytesHaveSend : Int
  docRoot : List UInt8
  trigMode : Int
deriving DecidableEq

/-- An object with every member zero. -/
def HttpConn.zero : HttpConn where
  timerFlag := 0
  improv := 0
  state := 0
  sockfd := 0
  readBuf := Buffer.zero _
  readIdx := 0
  checkedIdx := 0
  startLine := 0
  writeBuf := Buffer.zero _
  writeIdx := 0
  checkState := .requestLine
  method := .get
  realFile := Buffer.zero _
  url := .null
  version := .null
  host := .null
  contentLength := 0
  linger := false
  fileAddress := .null
  fileStat := ⟨false, false, 0⟩
  iovec0 := ⟨.wild, 0⟩
  iovec1 := ⟨.wild, 0⟩
  iovecCount := 0
  cgi := 0
  string := .null
  bytesToSend := 0
  bytesHaveSend := 0
  docRoot := []
  trigMode := 0

/-- What a call does to the epoll table. -/
inductive EpollCall
  | addfd (fd : Int) (oneShot : Bool) (edge : Bool)
  | modfd (fd : Int) (ev : Ev) (edge : Bool)
  | removefd (fd : Int)
deriving DecidableEq, Repr

/-- The private init(): only these members are reset between requests. -/
def HttpConn.initRequest (c : HttpConn) : HttpConn :=
  { c with
    bytesToSend := 0
    bytesHaveSend := 0
    checkState := .requestLine
    linger := false
    method := .get
    url := .null
    version := .null
    contentLength := 0
    host := .null
    startLine := 0
    checkedIdx := 0
    readIdx := 0
    writeIdx := 0
    cgi := 0
    state := 0
    timerFlag := 0
    improv := 0
    readBuf := Buffer.zero _
    writeBuf := Buffer.zero _
    realFile := Buffer.zero _ }

/-- The public init: addfd is called with the trigger mode the object held before. -/
def HttpConn.init (c : HttpConn) (sockfd : Int) (root : List UInt8) (trigMode : Int) :
    HttpConn × EpollCall :=
  ({ c with sockfd := sockfd, docRoot := root, trigMode := trigMode }.initRequest,
    .addfd sockfd true (c.trigMode = 1))

def HttpConn.rearm (c : HttpConn) (ev : Ev) : EpollCall :=
  .modfd c.sockfd ev (c.trigMode = 1)

def HttpConn.unmap (c : HttpConn) : HttpConn :=
  if c.fileAddress = .null then c else { c with fileAddress := .null }

end CppInAction
