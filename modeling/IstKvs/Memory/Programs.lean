import IstKvs.Host.Queue
import IstKvs.Store.Table
import IstKvs.Systems.LinkedList

/-! The hash table of the server in dynamic memory (`kvs.c`): its structures as
cells that point to each other, and its functions as programs over them. A local
variable that walks a list is an argument of the loop; an allocation comes with its
outcome. -/

namespace IstKvs.Memory

open IstKvs.Systems IstKvs.Store

/-! ### Cells -/

structure KeyNodeCell where
  key : Option Addr
  value : Option Addr
  next : Option Addr
  subscriber : Option Addr

structure ClientCell where
  fdReq : Fd
  fdResp : Fd
  fdNotif : Fd
  subscriptions : Option Addr

/-- A thread that serves clients. -/
abbrev Thread := Fin Host.maxSessionCount

/-- What one allocation holds, a string or a structure of the program, and the variables
`client` of the client threads. -/
inductive Cell
  | text (s : CStr)
  | subscriber (fdNotifPipe : Fd) (next : Option Addr)
  | keyNode (n : KeyNodeCell)
  | hashTable (table : Bucket → Option Addr) (bucketLocks : Option Addr)
  | bucketLocks
  | subscriptionsKeyNode (key : Option Addr) (next : Option Addr)
  | client (c : ClientCell)
  | threads (client : Thread → Option Addr)

abbrev Prog (B : Type) := Mem Fault Cell B

section Access

def deref : Option Addr → Prog Addr
  | some a => pure a
  | none => fail .null

def loadText (p : Option Addr) : Prog CStr := do
  let a ← deref p
  match ← load a with
  | .text s => pure s
  | _ => trap (.invalid a)

def loadSubscriber (a : Addr) : Prog Fd := do
  match ← load a with
  | .subscriber fd _ => pure fd
  | _ => trap (.invalid a)

def loadKeyNode (a : Addr) : Prog KeyNodeCell := do
  match ← load a with
  | .keyNode n => pure n
  | _ => trap (.invalid a)

def loadTable (ht : Addr) : Prog ((Bucket → Option Addr) × Option Addr) := do
  match ← load ht with
  | .hashTable table bucketLocks => pure (table, bucketLocks)
  | _ => trap (.invalid ht)

/-- `malloc`, NULL when it fails. -/
def tryMalloc (mem : Bool) (x : Cell) : Prog (Option Addr) :=
  if mem then do
    let a ← malloc x
    pure (some a)
  else pure none

def strdup (s : CStr) (mem : Bool) : Prog (Option Addr) := tryMalloc mem (.text s)

/-- `free`, which does nothing on NULL. -/
def freePtr : Option Addr → Prog Unit
  | some a => free a
  | none => pure ()

/-- `hash` as an index into the array of buckets. -/
def bucketIndex (key : CStr) : Prog Bucket :=
  match bucketOf key with
  | .ok b => pure b
  | .error f => fail f

end Access

/-! ### Fields that link nodes -/

def subscriberAccess : NodeAccess Cell where
  next
    | .subscriber _ e => some e
    | _ => none
  setNext
    | .subscriber fd _, e => .subscriber fd e
    | x, _ => x

def keyNodeAccess : NodeAccess Cell where
  next
    | .keyNode n => some n.next
    | _ => none
  setNext
    | .keyNode n, e => .keyNode { n with next := e }
    | x, _ => x

/-- `keyNode->subscriber = e`. -/
def setSubscriber (keyNode : Addr) (e : Option Addr) : Prog Unit := do
  let n ← loadKeyNode keyNode
  store keyNode (.keyNode { n with subscriber := e })

/-- `ht->table[index] = e`. -/
def setBucket (ht : Addr) (index : Bucket) (e : Option Addr) : Prog Unit := do
  let t ← loadTable ht
  store ht (.hashTable (Function.update t.1 index e) t.2)

/-! ### Subscribers -/

def matchFd (fdNotifPipe : Fd) (a : Addr) : Prog Bool := do
  let fd ← loadSubscriber a
  pure (decide (fd = fdNotifPipe))

def addSubscriber (keyNode : Addr) (fdNotifPipe : Fd) (mem : Bool) : Prog ℤ := do
  let n ← loadKeyNode keyNode
  let fuel ← handedOut
  let r ← seek subscriberAccess (matchFd fdNotifPipe) fuel none n.subscriber
  match r.2 with
  | some _ => pure 1
  | none =>
    let newSubscriber ← tryMalloc mem (.subscriber fdNotifPipe none)
    match newSubscriber with
    | none => pure (-1)
    | some a =>
      relink subscriberAccess (setSubscriber keyNode) r.1 (some a)
      pure 0

def removeSubscriber (keyNode : Addr) (fdNotifPipe : Fd) : Prog ℤ := do
  let n ← loadKeyNode keyNode
  let fuel ← handedOut
  let r ← seek subscriberAccess (matchFd fdNotifPipe) fuel none n.subscriber
  match r.2 with
  | some subscriber =>
    let e ← getNext subscriberAccess subscriber
    relink subscriberAccess (setSubscriber keyNode) r.1 e
    free subscriber
    pure 0
  | none => pure 1

def sendTo (key value : CStr) (a : Addr) : Prog Message := do
  let fd ← loadSubscriber a
  pure ⟨fd, key, value⟩

def notifySubscribers (keyNode : Addr) (key value : CStr) : Prog (List Message) := do
  let n ← loadKeyNode keyNode
  let fuel ← handedOut
  walk subscriberAccess (sendTo key value) fuel n.subscriber

def freeSubscribers (sub : Option Addr) : Prog Unit := do
  let fuel ← handedOut
  release subscriberAccess free fuel sub

/-! ### Pairs -/

/-- `strcmp(keyNode->key, key) == 0`. -/
def matchKey (key : CStr) (a : Addr) : Prog Bool := do
  let n ← loadKeyNode a
  let s ← loadText n.key
  pure (decide (strcmp s key = 0))

/-- The search loop of a bucket: the node of the key and the node before it. -/
def findKeyNode (ht : Addr) (index : Bucket) (key : CStr) :
    Prog (Option Addr × Option Addr) := do
  let t ← loadTable ht
  let fuel ← handedOut
  seek keyNodeAccess (matchKey key) fuel none (t.1 index)

/-- A new node at the start of a bucket; the fields that are not assigned yet are NULL. -/
def newKeyNode (ht : Addr) (index : Bucket) (key value : CStr) (mem : WriteMem) : Prog ℤ := do
  let keyNode ← tryMalloc mem.keyNode (.keyNode ⟨none, none, none, none⟩)
  match keyNode with
  | none => pure 1
  | some a =>
    let k ← strdup key mem.key
    let v ← strdup value mem.value
    if k.isNone || v.isNone then do
      freePtr k
      freePtr v
      free a
      pure 1
    else do
      let t ← loadTable ht
      store a (.keyNode ⟨k, v, t.1 index, none⟩)
      setBucket ht index (some a)
      pure 0

def writePair (ht : Addr) (key value : CStr) (mem : WriteMem) : Prog (ℤ × List Message) := do
  let index ← bucketIndex key
  let r ← findKeyNode ht index key
  match r.2 with
  | some keyNode =>
    let n ← loadKeyNode keyNode
    freePtr n.value
    let v ← strdup value mem.value
    store keyNode (.keyNode { n with value := v })
    let sent ← notifySubscribers keyNode key value
    pure (0, sent)
  | none =>
    let status ← newKeyNode ht index key value mem
    pure (status, [])

/-- A copy of the value that the caller has to free. -/
def readPair (ht : Addr) (key : CStr) (mem : Bool) : Prog (Option Addr) := do
  let index ← bucketIndex key
  let r ← findKeyNode ht index key
  match r.2 with
  | some keyNode =>
    let n ← loadKeyNode keyNode
    let s ← loadText n.value
    strdup s mem
  | none => pure none

/-- The node and all that it points to, but not the nodes after it. -/
def freeKeyNode (keyNode : Addr) : Prog Unit := do
  let n ← loadKeyNode keyNode
  freePtr n.key
  freePtr n.value
  freeSubscribers n.subscriber
  free keyNode

def deletePair (ht : Addr) (key : CStr) : Prog (ℤ × List Message) := do
  let index ← bucketIndex key
  let r ← findKeyNode ht index key
  match r.2 with
  | some keyNode =>
    let sent ← notifySubscribers keyNode key deleteValue
    let e ← getNext keyNodeAccess keyNode
    relink keyNodeAccess (setBucket ht index) r.1 e
    freeKeyNode keyNode
    pure (0, sent)
  | none => pure (1, [])

/-- What `kvs_subscribe` does in the bucket: whether the key exists, and the status. -/
def subscribeKey (ht : Addr) (index : Bucket) (key : CStr) (fdNotif : Fd) (mem : Bool) :
    Prog (ℤ × Bool) := do
  let r ← findKeyNode ht index key
  match r.2 with
  | some keyNode =>
    let status ← addSubscriber keyNode fdNotif mem
    pure (status, true)
  | none => pure (0, false)

/-- What `kvs_aux_unsubscribe` does. -/
def auxUnsubscribe (ht : Addr) (key : CStr) (fdNotif : Fd) : Prog ℤ := do
  let index ← bucketIndex key
  let r ← findKeyNode ht index key
  match r.2 with
  | some keyNode =>
    let n ← loadKeyNode keyNode
    if n.subscriber.isNone then pure 1
    else removeSubscriber keyNode fdNotif
  | none => pure 1

/-! ### The table -/

/-- Which steps of `create_hash_table` succeed: the two allocations and all of the locks. -/
structure CreateMem where
  table : Bool
  bucketLocks : Bool
  locks : Bool

def createHashTable (mem : CreateMem) : Prog (Option Addr) := do
  let ht ← tryMalloc mem.table (.hashTable (fun _ => none) none)
  match ht with
  | none => pure none
  | some a =>
    let locks ← tryMalloc mem.bucketLocks .bucketLocks
    match locks with
    | none =>
      free a
      pure none
    | some l =>
      store a (.hashTable (fun _ => none) (some l))
      -- the two allocations are kept also when a lock cannot be initialized
      if mem.locks then pure (some a) else pure none

def freeTable (ht : Addr) : Prog Unit := do
  let t ← loadTable ht
  (List.finRange tableSize).forM fun i => do
    let fuel ← handedOut
    release keyNodeAccess freeKeyNode fuel (t.1 i)
  freePtr t.2
  free ht

end IstKvs.Memory
