import Mathlib.Logic.Function.Basic
import Fdfs2qq.Box.StorageConfig
import Fdfs2qq.Lib.Pool
import Fdfs2qq.Logger

/-! `ProducerCli`: the threads that run `WaitProducer` and `ListenItemConsumerMq`
over the static members of the class, one access of shared data a step. Objects
that were deleted keep their bytes and are not handed out again. -/
namespace Fdfs2qq.Jobschedule
open Lib Box

/-- Bytes on a connection, each with the number of the send it belongs to. -/
abbrev Sent := List (Nat × UInt8)

inductive Peer where
  | tracker
  | consumer
  | other
deriving DecidableEq

/-- What is behind an open descriptor: what the peer has not taken yet, what it has
sent, and who it is. -/
structure Link where
  inbox : Sent
  outbox : Bytes
  peer : Peer
deriving DecidableEq

def Link.fresh (peer : Peer) : Link := ⟨[], [], peer⟩

structure ConnectionInfo where
  owner : Nat
  deleted : Bool
  sock : Int
deriving DecidableEq

/-- What the code does not decide: the bytes `new` leaves in `sock`, the descriptor
of a socket, the files of a folder, how many bytes a call moves before it fails, the
stack in a header or behind it, and an error as its number and text. -/
structure Outcome where
  sock : Int := -1
  fd : Nat := 3
  filelist : List Bytes := []
  failure : Option Nat := none
  memory : Bytes := []
  reason : Bytes := []

/-- The static members, the objects allocated so far, the open descriptors, and what
has happened: which thread took which message, the ids pushed and the ids handed to the
consumer, what the tracker answered to which line, and whether the process died. -/
structure ProducerCli where
  gVolumnsMq : List Bytes := []
  gItemProduceMq : List Bytes := []
  incSubdirCounts : Nat := 0
  pTrackerServer : Option Nat := none
  pConsumerServer : Option Nat := none
  connections : List ConnectionInfo := []
  descriptors : Nat → Option Link := fun fd => if fd < 3 then some ⟨[], [], .other⟩ else none
  sends : Nat := 0
  taken : List (Nat × Bytes) := []
  pushed : List Bytes := []
  handed : List Bytes := []
  answers : List (Sent × Bytes) := []
  crashed : Bool := false

/-- `MAX_SUBDIR_COUNTS` and `MAX_VOLUMNS_COUNT`, from the configuration. -/
structure Limits where
  maxSubdirCounts : Nat
  maxVolumnsCount : Int

/-- `sizeof(RESPONSE_HEADER)`: 128 bytes, 128 bytes and 3 bytes. -/
def responseHeaderSize : Nat := 259

def registSucess : Int := 200

namespace ProducerCli

variable (p : ProducerCli)

def sock (server : Nat) : Int := (p.connections[server]?.map ConnectionInfo.sock).getD (-1)

def descriptor (server : Nat) : Option Nat := (p.sock server).toNat?

def link (server : Nat) : Option Link := (p.descriptor server).bind p.descriptors

def allocate (owner : Nat) (sock : Int) : ProducerCli :=
  { p with connections := p.connections ++ [⟨owner, false, sock⟩] }

def modify (server : Nat) (change : ConnectionInfo → ConnectionInfo) : ProducerCli :=
  { p with connections := p.connections.modify server change }

def setSock (server : Nat) (sock : Int) : ProducerCli := p.modify server fun c => { c with sock := sock }

def setDescriptor (fd : Nat) (link : Option Link) : ProducerCli :=
  { p with descriptors := Function.update p.descriptors fd link }

def setLink (server : Nat) (link : Option Link) : ProducerCli :=
  match p.descriptor server with
  | some fd => p.setDescriptor fd link
  | none => p

def delete (server : Nat) : ProducerCli := p.modify server fun c => { c with deleted := true }

/-- `conn_pool_disconnect_server`, which closes what is behind a `sock` from 0 on. -/
def disconnect (server : Nat) : ProducerCli :=
  if 0 ≤ p.sock server then (p.setLink server none).setSock server (-1) else p

/-- `conn_pool_connect_server` to this peer, which first closes what is behind a `sock`
from 0 on. A new socket has a descriptor that is not open. -/
def connect (server : Nat) (peer : Peer) (o : Outcome) : Option ProducerCli :=
  let closed := p.setLink server none
  match o.failure with
  | none =>
    if closed.descriptors o.fd = none
    then some ((closed.setDescriptor o.fd (some (.fresh peer))).setSock server o.fd)
    else none
  | some _ => some (closed.setSock server (-1))

def tagged (data : Bytes) : Sent := data.map (p.sends, ·)

/-- `tcpsenddata_nb(sock, data)`: all of the data, or a part of it and an error. -/
def send (server : Nat) (data : Bytes) (failure : Option Nat) : Option ProducerCli :=
  let sent (count : Nat) := setLink { p with sends := p.sends + 1 } server <|
    (p.link server).map fun link => { link with inbox := link.inbox ++ (p.tagged data).take count }
  match failure with
  | none => if (p.link server).isSome then some (sent data.length) else none
  | some count => if count < data.length then some (sent count) else none

/-- `tcprecvdata_nb(sock, &resp_tmp, sizeof(RESPONSE_HEADER))`: a header, or an
error after some of its bytes. -/
def receive (server : Nat) (failure : Option Nat) : Option (Option Bytes × ProducerCli) :=
  let outbox := ((p.link server).map Link.outbox).getD []
  let rest (count : Nat) := p.setLink server <|
    (p.link server).map fun link => { link with outbox := outbox.drop count }
  match failure with
  | none =>
    if responseHeaderSize ≤ outbox.length
    then some (outbox.take responseHeaderSize, rest responseHeaderSize)
    else none
  | some count =>
    if count < responseHeaderSize ∧ count ≤ outbox.length then some (none, rest count) else none

/-- Whether `TransferByData` makes no connect. -/
def reuses : Bool := p.pTrackerServer.any (0 < p.sock ·)

def atConsumer : Bool := p.pConsumerServer.any fun server => (p.link server).any (·.peer = .consumer)

end ProducerCli

/-- The bytes up to the first newline, with it, and the bytes after it. -/
def firstLine (bytes : Sent) : Option (Sent × Sent) :=
  match bytes.dropWhile (·.2 ≠ newline) with
  | [] => none
  | last :: rest => some (bytes.takeWhile (·.2 ≠ newline) ++ [last], rest)

/-- The tracker answers the next line it got on a connection, with a header. What
is behind any other descriptor may send anything. -/
def answer (event : Nat × Bytes) (p : ProducerCli) : Option ProducerCli :=
  (p.descriptors event.1).bind fun link =>
    if link.peer = .tracker then
      if event.2.length = responseHeaderSize then
        (firstLine link.inbox).map fun (line, rest) =>
          ProducerCli.setDescriptor { p with answers := p.answers ++ [(line, event.2)] } event.1
            (some { link with inbox := rest, outbox := link.outbox ++ event.2 })
      else none
    else some (p.setDescriptor event.1 (some { link with outbox := link.outbox ++ event.2 }))

/-- Where a thread in `WaitProducer` stands, in its loop or in `_ProducerMsg`,
with the locals it still needs. -/
inductive WaitProducer where
  | test
  | increment
  | pop
  | allocate (storageInfo : StorageVolumnObject)
  | address (storageInfo : StorageVolumnObject)
  | scan (storageInfo : StorageVolumnObject)
  | files (storageInfo : StorageVolumnObject) (globalidList : List Bytes)
  | send (storageInfo : StorageVolumnObject) (globalidList : List Bytes) (server : Nat) (tmp : Bytes)
  | receive (storageInfo : StorageVolumnObject) (globalidList : List Bytes) (server : Nat) (tmp : Sent)
  | status (storageInfo : StorageVolumnObject) (globalidList : List Bytes) (tmp : Sent)
      (header : Bytes)
  | push (storageInfo : StorageVolumnObject) (globalidList : List Bytes) (fileid : Bytes)
  | disconnect
  | delete
  | exitTest
  | left
deriving DecidableEq

inductive ListenItemConsumerMq where
  | start
  | address
  | test
  | pop
  | connect (fileid : Bytes)
  | send (fileid : Bytes)
  | disconnect
  | delete
deriving DecidableEq

inductive Thread where
  | producer (place : WaitProducer)
  | listener (place : ListenItemConsumerMq)
deriving DecidableEq

def volumnsIdInt (storageInfo : StorageVolumnObject) : Int :=
  atoi (storageInfo.volumnid.filter isDigit)

def registRequest (storageInfo : StorageVolumnObject) (globalid : Bytes) : Bytes :=
  ascii "2" ++ boxMsgSeperator :: storageInfo.volumnstr ++ boxMsgSeperator ::
    globalid.filter (· ≠ newline) ++ [newline]

/-- `String2int(std::string(header.ext_status))`, which reads to the first NUL. -/
def stssatus (header memory : Bytes) : Int := string2int (cStr (header.drop 256 ++ memory))

def responseObject2StorageFileObject (header memory : Bytes) : StorageFileObject :=
  .ofText (cStr (header ++ memory)) (cStr (header.drop 128 ++ memory))

/-- What follows the pop; `msg` is empty where there was nothing to pop. -/
def WaitProducer.popped (msg : Bytes) : WaitProducer :=
  let oriObj := stringToStorageVolumnObject msg
  if oriObj.isvalid then .allocate oriObj else .exitTest

def WaitProducer.step (limits : Limits) (i : Nat) (o : Outcome) (p : ProducerCli) :
    WaitProducer → Option (WaitProducer × ProducerCli)
  | .test => some (if p.gVolumnsMq = [] then .exitTest else .increment, p)
  | .increment => some (.pop, { p with incSubdirCounts := p.incSubdirCounts + 1 })
  | .pop =>
    match p.gVolumnsMq with
    | [] => some (popped [], p)
    | msg :: rest => some (popped msg, { p with gVolumnsMq := rest, taken := p.taken ++ [(i, msg)] })
  | .allocate info =>
    some (.address info, { p.allocate i o.sock with pTrackerServer := some p.connections.length })
  | .address info => p.pTrackerServer.map fun _ => (.scan info, p)
  | .scan info => some (.files info (getGlobalIdByFilelist o.filelist info), p)
  | .files _ [] => some (.disconnect, p)
  | .files info (globalid :: rest) =>
    if volumnsIdInt info < limits.maxVolumnsCount then
      p.pTrackerServer.bind fun server =>
        -- a connection is reused while its socket is positive
        if p.reuses then some (.send info rest server (registRequest info globalid), p)
        else (p.connect server .tracker o).map fun q =>
          (if o.failure = none then .send info rest server (registRequest info globalid) else .files info rest, q)
    else some (.files info rest, p)
  | .send info rest server tmp =>
    (p.send server tmp o.failure).map fun q =>
      (if o.failure = none then .receive info rest server (p.tagged tmp) else .files info rest, q)
  | .receive info rest server tmp =>
    (p.receive server o.failure).map fun
      | (some header, q) => (.status info rest tmp header, q)
      | (none, q) => (.files info rest, q)
  | .status info rest _ header =>
    if stssatus header o.memory = registSucess then
      some (.push info rest (responseObject2StorageFileObject header o.memory).globalFileid, p)
    else some (.files info rest, p)
  | .push info rest fileid =>
    some (.files info rest,
      { p with gItemProduceMq := p.gItemProduceMq ++ [fileid], pushed := p.pushed ++ [fileid] })
  | .disconnect => p.pTrackerServer.map fun server => (.delete, p.disconnect server)
  | .delete => p.pTrackerServer.map fun server => (.exitTest, p.delete server)
  | .exitTest =>
    some (if limits.maxSubdirCounts ≤ p.incSubdirCounts then .left else .test, p)
  | .left => none

def ListenItemConsumerMq.step (i : Nat) (o : Outcome) (p : ProducerCli) :
    ListenItemConsumerMq → Option (ListenItemConsumerMq × ProducerCli)
  | .start =>
    some (.address, { p.allocate i o.sock with pConsumerServer := some p.connections.length })
  | .address => p.pConsumerServer.map fun _ => (.test, p)
  | .test => some (if p.gItemProduceMq = [] then .test else .pop, p)
  | .pop =>
    match p.gItemProduceMq with
    | [] => some (.test, p)
    | fileid :: rest =>
      some (if fileid = [] then .test else .connect fileid, { p with gItemProduceMq := rest })
  | .connect fileid =>
    p.pConsumerServer.bind fun server => (p.connect server .consumer o).map fun q =>
      (if o.failure = none then .send fileid else .delete, q)
  | .send fileid =>
    p.pConsumerServer.bind fun server => (p.send server fileid o.failure).map fun q =>
      -- the result of the send is not looked at, nor who is behind the descriptor
      (.disconnect, { q with handed :=
        if o.failure = none ∧ p.atConsumer then q.handed ++ [fileid] else q.handed })
  | .disconnect => p.pConsumerServer.map fun server => (.test, p.disconnect server)
  | .delete => p.pConsumerServer.map fun server => (.test, p.delete server)

def Thread.move (limits : Limits) (i : Nat) (o : Outcome) (t : Thread) (p : ProducerCli) :
    Option (Thread × ProducerCli) :=
  match t with
  | .producer w => (w.step limits i o p).map fun (w, q) => (.producer w, q)
  | .listener w => (w.step i o p).map fun (w, q) => (.listener w, q)

/-- `"file: " __FILE__ ", line: %d, "` -/
def logPlace (line : Bytes) : Bytes :=
  ascii "file: ./src/jobschedule/ProducerCli.cc, line: " ++ line ++ ascii ", "

/-- What `TransferByData` logs when the send fails. -/
def sendError (data : Bytes) (o : Outcome) : Bytes :=
  logPlace (ascii "47") ++ ascii "sync appender file, tcpsenddata_nb: " ++ cStr data ++
    ascii " error, maybe disconnect? later? reason status " ++ o.reason ++ ascii ","

/-- What `_ProducerMsg` logs when the transfer failed, with the bytes of a header that was
never written. -/
def queryError (o : Outcome) : Bytes :=
  logPlace (ascii "297") ++ ascii "query error, filid :" ++ cStr o.memory ++ ascii " "

def sendTracker (tmp header memory : Bytes) : Bytes :=
  ascii "send tracker fileid:" ++ cStr tmp ++ ascii " ,response status :" ++ cStr (header.drop 256 ++ memory)

def depelated (header memory : Bytes) : Bytes :=
  logPlace (ascii "320") ++ ascii "depelated, filid :" ++ cStr (header ++ memory) ++ ascii " "

def failIndex (storageInfo : StorageVolumnObject) (globalid : Bytes) : Bytes :=
  globalid ++ ascii ",\tfail index G_BptList,for index=" ++ storageInfo.volumnid.filter isDigit

def sendConsume (fileid : Bytes) : Bytes := ascii " send consume fileid::" ++ cStr fileid

/-- Whether what the step logs can be logged. Messages that no peer and no file has a part
in are left out. -/
def WaitProducer.logs (limits : Limits) (o : Outcome) (p : ProducerCli) : WaitProducer → Bool
  | .files info (globalid :: _) =>
    if volumnsIdInt info < limits.maxVolumnsCount
    then p.reuses || o.failure = none || Logger.infoText (queryError o)
    else Logger.info (failIndex info globalid)
  | .send _ _ _ tmp =>
    o.failure = none || Logger.infoText (sendError tmp o) && Logger.infoText (queryError o)
  | .receive .. => o.failure = none || Logger.infoText (queryError o)
  | .status _ _ tmp header =>
    if stssatus header o.memory = registSucess
    then Logger.infoText (sendTracker (tmp.map Prod.snd) header o.memory)
    else Logger.infoText (depelated header o.memory)
  | _ => true

def ListenItemConsumerMq.logs (o : Outcome) : ListenItemConsumerMq → Bool
  | .connect fileid => Logger.infoText (sendConsume fileid)
  | .send fileid => o.failure = none || Logger.infoText (sendError fileid o)
  | _ => true

def Thread.logs (limits : Limits) (o : Outcome) (p : ProducerCli) : Thread → Bool
  | .producer w => w.logs limits o p
  | .listener w => w.logs o

/-- A step that logs what cannot be logged is the last of the process. -/
def Thread.step (limits : Limits) (i : Nat) (o : Outcome) (t : Thread) (p : ProducerCli) :
    Option (Thread × ProducerCli) :=
  (t.move limits i o p).map fun moved =>
    if t.logs limits o p then moved else (t, { p with crashed := true })

abbrev Process := Pool ProducerCli Thread

abbrev Event := Pool.Label Outcome (Nat × Bytes)

def Process.step? (limits : Limits) (p : Process) (e : Event) : Option Process :=
  if p.shared.crashed then none else Pool.step? (Thread.step limits) answer p e

/-- `ForkProducer` and `ForkConsumer`, with these messages in the queue. -/
def Process.start (volumns : List Bytes) (producers listeners : Nat) : Process where
  shared := { gVolumnsMq := volumns }
  threads := List.replicate producers (.producer .test) ++ List.replicate listeners (.listener .start)

/-- The objects that `ReadyProducer` collects before it fills the queue. -/
def readyVolumns (volumnsDict : Dict) (groupId : Bytes) : Option (List StorageVolumnObject) :=
  ((volumnsDict.map Prod.fst).mergeSort (· ≤ ·)).mapM (getStoreFolderByOrder volumnsDict groupId)
    |>.map List.flatten

/-- `ReadyProducer`: the messages for all store folders of the configured volumes. -/
def readyProducer (volumnsDict : Dict) (groupId : Bytes) : Option (List Bytes) :=
  ((volumnsDict.map Prod.fst).mergeSort (· ≤ ·)).mapM (getStoreFolderByOrder volumnsDict groupId)
    |>.map fun lists => lists.flatten.map StorageVolumnObject.toText

end Fdfs2qq.Jobschedule
