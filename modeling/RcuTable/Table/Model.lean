import RcuTable.Lib.Prog
import Mathlib.Data.Int.Notation
import Mathlib.Logic.Function.Basic

/-!
# Table.Model — the relativistic hash table as programs over a heap of `next` pointers

`Heap` is the memory the table works on, `Act` the atomic operations on it, and the functions of
RcuSinglyLinkedListApi.h, RCUHashTable.cpp and RCUHashTableCoreApi.h are programs over them, statement by
statement.  `Act.rcuSynchronize` is the writer's call into the zone: it changes nothing in the heap.
`Act.ask` is a call of the predicate that the caller has passed, on one node.  `Act.fail` is a failed
assertion or the dereference of a null pointer.
-/

namespace RcuTable

open Atomic

/-- The address of a `RcuSlistHead`: the list head of bucket `i` of a `BucketsInfo`, or the one inside an
`RNode`. -/
inductive Ptr where
  | head (info i : ℕ)
  | node (n : ℕ)
  deriving DecidableEq

/-- The float arithmetic of the resize decisions. -/
structure FloatOps (φ : Type) where
  ofSize : ℕ → φ
  mul : φ → φ → φ
  lt : φ → φ → Bool

/-- The memory: the `next` and `hash` fields, the data `key` that callers keep around an `RNode` and their
predicates look at, the table's own fields, and the allocated `BucketsInfo`s (`0` is the null pointer). -/
structure Heap (K φ : Type) where
  next : Ptr → Option Ptr
  hash : Ptr → ℕ
  key : Ptr → K
  pBucketsInfo : ℕ
  size : ℕ
  expandFactor : φ
  shrinkFactor : φ
  nrBucketsPowerOf2 : ℕ → ℕ
  live : ℕ → Bool
  fresh : ℕ

/-- The atomic operations, each with the type of its answer. -/
inductive Act (K φ : Type) : Type → Type
  | loadNext (p : Ptr) : Act K φ (Option Ptr)
  | storeNext (p : Ptr) (v : Option Ptr) : Act K φ Unit
  | loadHash (p : Ptr) : Act K φ ℕ
  | storeHash (p : Ptr) (hashVal : ℕ) : Act K φ Unit
  | ask (p : Ptr) (f : Heap K φ → Ptr → Bool) : Act K φ Bool
  | loadInfo : Act K φ ℕ
  | storeInfo (b : ℕ) : Act K φ Unit
  | nrBuckets (b : ℕ) : Act K φ ℕ
  | malloc (nrBuckets : ℕ) : Act K φ ℕ
  | free (b : ℕ) : Act K φ Unit
  | loadSize : Act K φ ℕ
  | fetchAddSize : Act K φ Unit
  | expandFactor : Act K φ φ
  | shrinkFactor : Act K φ φ
  | storeFactors (expand shrink : φ) : Act K φ Unit
  | rcuSynchronize : Act K φ Unit
  | fail : Act K φ Empty

variable {K φ α β : Type}

namespace Heap

/-- The address is inside allocated memory. -/
def accessible (h : Heap K φ) : Ptr → Bool
  | .head b i => h.live b && decide (i < h.nrBucketsPowerOf2 b)
  | .node _ => true

def setNext (h : Heap K φ) (p : Ptr) (v : Option Ptr) : Heap K φ :=
  { h with next := Function.update h.next p v }

/-- The `malloc` of a `BucketsInfo` with `n` buckets, at an address never used before. -/
def malloc (h : Heap K φ) (n : ℕ) : Heap K φ :=
  { h with
    fresh := h.fresh + 1
    live := Function.update h.live h.fresh true
    nrBucketsPowerOf2 := Function.update h.nrBucketsPowerOf2 h.fresh n }

end Heap

/-- One atomic operation; `none` where the code has no defined behaviour. -/
def exec : {β : Type} → Act K φ β → Heap K φ → Option (β × Heap K φ)
  | _, .loadNext p, h => if h.accessible p then some (h.next p, h) else none
  | _, .storeNext p v, h => if h.accessible p then some ((), h.setNext p v) else none
  | _, .loadHash p, h => some (h.hash p, h)
  | _, .storeHash p x, h => some ((), { h with hash := Function.update h.hash p x })
  | _, .ask p f, h => some (f h p, h)
  | _, .loadInfo, h => some (h.pBucketsInfo, h)
  | _, .storeInfo b, h => some ((), { h with pBucketsInfo := b })
  | _, .nrBuckets b, h => if h.live b then some (h.nrBucketsPowerOf2 b, h) else none
  | _, .malloc n, h => some (h.fresh, h.malloc n)
  | _, .free b, h => if h.live b then some ((), { h with live := Function.update h.live b false }) else none
  | _, .loadSize, h => some (h.size, h)
  | _, .fetchAddSize, h => some ((), { h with size := h.size + 1 })
  | _, .expandFactor, h => some (h.expandFactor, h)
  | _, .shrinkFactor, h => some (h.shrinkFactor, h)
  | _, .storeFactors e s, h => some ((), { h with expandFactor := e, shrinkFactor := s })
  | _, .rcuSynchronize, h => some ((), h)
  | _, .fail, _ => none

abbrev Code (K φ α : Type) := Prog (Act K φ) α

def load (p : Ptr) : Code K φ (Option Ptr) := Prog.lift (.loadNext p)
def store (p : Ptr) (v : Option Ptr) : Code K φ Unit := Prog.lift (.storeNext p v)
def ask (p : Ptr) (f : Heap K φ → Ptr → Bool) : Code K φ Bool := Prog.lift (.ask p f)
def rcuSynchronize : Code K φ Unit := Prog.lift .rcuSynchronize
def abort : Code K φ α := .act .fail Empty.elim
def assert (b : Bool) : Code K φ Unit := if b then pure () else abort

/-- Use of a pointer that must not be null. -/
def deref : Option Ptr → Code K φ Ptr
  | some p => pure p
  | none => abort

/-! ### RcuSinglyLinkedListApi.h -/

def rcuSlistInit (list : Ptr) : Code K φ Unit := store list none

def rcuSlistInsertAfter (pos newElem : Ptr) : Code K φ Unit := do
  let pNext ← load pos
  store newElem pNext
  store pos (some newElem)

def rcuSlistAppendToTail (pos newElem : Ptr) : Code K φ Unit := do
  let pNext ← load pos
  let p ← Prog.loop (fun (p, pNext) => match pNext with
    | none => pure (.inr p)
    | some q => do
      let pNext ← load q
      pure (.inl (q, pNext))) (pos, pNext)
  store newElem none
  store p (some newElem)

def rcuSlistPrependIfNoMatch (list newElem : Ptr) (binaryPredict : Heap K φ → Ptr → Ptr → Bool) :
    Code K φ Bool := do
  let pFirst ← load list
  let found ← Prog.loop (fun p => match p with
    | none => pure (.inr false)
    | some q => do
      if ← ask q fun h q => binaryPredict h q newElem then pure (.inr true)
      else
        let p ← load q
        pure (.inl p)) pFirst
  if found then return false
  store newElem pFirst
  store list (some newElem)
  return true

/-- The predicate is called on `p`, which trails one cell behind `pNext` and starts at the list head. -/
def rcuSlistAppendIfNoMatch (list newElem : Ptr) (binaryPredict : Heap K φ → Ptr → Ptr → Bool) :
    Code K φ Bool := do
  let pNext ← load list
  let last ← Prog.loop (fun (p, pNext) => match pNext with
    | none => pure (.inr (some p))
    | some q => do
      if ← ask p fun h p => binaryPredict h p newElem then pure (.inr none)
      else
        let pNext ← load q
        pure (.inl (q, pNext))) (list, pNext)
  match last with
  | none => return false
  | some p => do
    store newElem none
    store p (some newElem)
    return true

def rcuSlistFindIf (list : Ptr) (predict : Heap K φ → Ptr → Bool) : Code K φ (Option Ptr) := do
  let p ← load list
  Prog.loop (fun p => match p with
    | none => pure (.inr none)
    | some q => do
      if ← ask q predict then pure (.inr (some q))
      else
        let p ← load q
        pure (.inl p)) p

def rcuSlistRemoveIf (list : Ptr) (predict : Heap K φ → Ptr → Bool) : Code K φ (Option Ptr) := do
  let p ← load list
  Prog.loop (fun (pLast, p) => match p with
    | none => pure (.inr none)
    | some q => do
      if ← ask q predict then
        let pNext ← load q
        store pLast pNext
        pure (.inr (some q))
      else
        let p ← load q
        pure (.inl (q, p))) (list, p)

/-- The comparison with `head` is of pointers; no predicate is called. -/
def rcuSlistRemove (list head : Ptr) : Code K φ (Option Ptr) := do
  let p ← load list
  Prog.loop (fun (pLast, p) => match p with
    | none => pure (.inr none)
    | some q => do
      if q = head then
        let pNext ← load q
        store pLast pNext
        pure (.inr (some q))
      else
        let p ← load q
        pure (.inl (q, p))) (list, p)

/-! ### RCUHashTable.cpp -/

def upperBoundPowerOf2 (v : BitVec 32) : BitVec 32 :=
  if v = 0 then 1
  else
    let v := v - 1
    let v := v ||| v >>> 1
    let v := v ||| v >>> 2
    let v := v ||| v >>> 4
    let v := v ||| v >>> 8
    let v := v ||| v >>> 16
    v + 1

def allocateAndInitBuckets (nrBucketsPowerOf2 : ℕ) : Code K φ ℕ := do
  assert (nrBucketsPowerOf2 > 0)
  let p ← Prog.lift (.malloc nrBucketsPowerOf2)
  Prog.forRange nrBucketsPowerOf2 () fun iBucket _ => store (.head p iBucket) none
  return p

def destroyAndFreeBuckets (p : ℕ) : Code K φ Unit := Prog.lift (.free p)

def shrinkTwoBucketsToOne (pSrc0 pSrc1 pDst : Ptr) : Code K φ Unit := do
  let pSrc0First ← load pSrc0
  let pSrc1First ← load pSrc1
  if pSrc1First = none then store pDst pSrc0First
  else match pSrc0First with
    | none => store pDst pSrc1First
    | some first => do
      let pSrc0Last ← Prog.loop (fun pSrc0Last => do
        let pNext ← load pSrc0Last
        match pNext with
        | none => pure (.inr pSrc0Last)
        | some pNext => pure (.inl pNext)) first
      store pSrc0Last pSrc1First
      store pDst pSrc0First

def computeHashBucketId (p : Ptr) (hashMask : ℕ) : Code K φ ℕ := do
  let hash ← Prog.lift (.loadHash p)
  return hash &&& hashMask

def unzipOneSegment (pZipStart : Ptr) (hashMaskExpanded : ℕ) : Code K φ Unit := do
  let pJumpStart ← deref (← load pZipStart)
  assert (← load pJumpStart).isSome
  let jumpStartHashBucketId ← computeHashBucketId pJumpStart hashMaskExpanded
  let pNextJumpStart ← deref (← load pJumpStart)
  assert ((← computeHashBucketId pNextJumpStart hashMaskExpanded) ≠ jumpStartHashBucketId)
  let (pNextJumpStart, pNext) ← Prog.loop (fun pNextJumpStart => do
    let pNext ← load pNextJumpStart
    match pNext with
    | none => pure (.inr (none, none))
    | some q =>
      if (← computeHashBucketId q hashMaskExpanded) = jumpStartHashBucketId then
        pure (.inr (some pNextJumpStart, some q))
      else pure (.inl q)) pNextJumpStart
  store pZipStart pNextJumpStart
  store pJumpStart pNext

def initTwinDstBuckets (pSrc pDst0 pDst1 : Ptr) (bucketDstId0 bucketDstId1 bucketIdMask : ℕ) :
    Code K φ Unit := do
  let p ← load pSrc
  let (pFirstDst0, pFirstDst1) ← Prog.loop (fun (p, pFirstDst0, pFirstDst1) => match p with
    | none => pure (.inr (pFirstDst0, pFirstDst1))
    | some q => do
      let bucketId ← computeHashBucketId q bucketIdMask
      assert (bucketId = bucketDstId0 ∨ bucketId = bucketDstId1)
      let (pFirstDst0, pFirstDst1) :=
        if pFirstDst0 = none ∧ bucketId = bucketDstId0 then (some q, pFirstDst1)
        else if pFirstDst1 = none ∧ bucketId = bucketDstId1 then (pFirstDst0, some q)
        else (pFirstDst0, pFirstDst1)
      if pFirstDst0 ≠ none ∧ pFirstDst1 ≠ none then pure (.inr (pFirstDst0, pFirstDst1))
      else
        let p ← load q
        pure (.inl (p, pFirstDst0, pFirstDst1))) (p, none, none)
  store pDst0 pFirstDst0
  store pDst1 pFirstDst1

def findFirstUnzipPoint (pSrc : Ptr) (hashMask : ℕ) : Code K φ Bool := do
  let p ← deref (← load pSrc)
  let hashBucketInitial ← computeHashBucketId p hashMask
  let p ← Prog.loop (fun p => do
    let pNext ← load p
    match pNext with
    | none => pure (.inr none)
    | some q =>
      if (← computeHashBucketId q hashMask) ≠ hashBucketInitial then pure (.inr (some p))
      else pure (.inl q)) p
  store pSrc p
  return p.isSome

def findFirstUnzipStarts (bucketsInfoOld bucketMaskNew : ℕ) : Code K φ Bool := do
  let nr ← Prog.lift (.nrBuckets bucketsInfoOld)
  let allFinished ← Prog.forRange nr true fun iHalf allFinished => do
    if (← load (.head bucketsInfoOld iHalf)) ≠ none then
      let needUnzip ← findFirstUnzipPoint (.head bucketsInfoOld iHalf) bucketMaskNew
      if needUnzip then return false
    return allFinished
  -- `return bucketsInfoOld;` of the source: a pointer that is not null, read as `true`
  if allFinished then return (bucketsInfoOld ≠ 0)
  return allFinished

def unzip (bucketsInfoOld bucketMaskNew : ℕ) : Code K φ Unit :=
  Prog.loop (fun _ => do
    let nr ← Prog.lift (.nrBuckets bucketsInfoOld)
    let allFinished ← Prog.forRange nr true fun iHalf allFinished => do
      if (← load (.head bucketsInfoOld iHalf)) ≠ none then
        unzipOneSegment (.head bucketsInfoOld iHalf) bucketMaskNew
        return false
      return allFinished
    if allFinished then pure (.inr ())
    else
      rcuSynchronize
      pure (.inl ())) ()

def expandBucketsByFac2ReturnOld : Code K φ ℕ := do
  let bucketsInfoOld ← Prog.lift .loadInfo
  let nrBucketsOld ← Prog.lift (.nrBuckets bucketsInfoOld)
  let nrBucketsNew := nrBucketsOld * 2
  let bucketMaskNew := nrBucketsNew - 1
  let bucketsInfo ← allocateAndInitBuckets nrBucketsNew
  Prog.forRange nrBucketsOld () fun iHalf _ =>
    let iSecondHalf := iHalf + nrBucketsOld
    initTwinDstBuckets (.head bucketsInfoOld iHalf) (.head bucketsInfo iHalf)
      (.head bucketsInfo iSecondHalf) iHalf iSecondHalf bucketMaskNew
  Prog.lift (.storeInfo bucketsInfo)
  rcuSynchronize
  let noNeedToUnzip ← findFirstUnzipStarts bucketsInfoOld bucketMaskNew
  if noNeedToUnzip then return bucketsInfoOld
  unzip bucketsInfoOld bucketMaskNew
  return bucketsInfoOld

/-- `none` is the null pointer: a table with one bucket is not shrunk. -/
def shrinkBucketsByFac2ReturnOld : Code K φ (Option ℕ) := do
  let bucketsInfoOld ← Prog.lift .loadInfo
  let nrBucketsOld ← Prog.lift (.nrBuckets bucketsInfoOld)
  let nrBucketsNew := nrBucketsOld / 2
  if nrBucketsNew = 0 then return none
  let bucketsInfoNew ← allocateAndInitBuckets nrBucketsNew
  Prog.forRange nrBucketsNew () fun iHalf _ =>
    let iSecondHalf := iHalf + nrBucketsNew
    shrinkTwoBucketsToOne (.head bucketsInfoOld iHalf) (.head bucketsInfoOld iSecondHalf)
      (.head bucketsInfoNew iHalf)
  Prog.lift (.storeInfo bucketsInfoNew)
  rcuSynchronize
  return some bucketsInfoOld

structure RTableCoreConfig (φ : Type) where
  nrBuckets : ℤ
  expandFactor : φ
  shrinkFactor : φ

def rTableCoreInitDetailed (conf : RTableCoreConfig φ) : Code K φ Unit := do
  let nrBucketsPowerOf2 := upperBoundPowerOf2 (BitVec.ofInt 32 conf.nrBuckets)
  let bucketsInfo ← allocateAndInitBuckets nrBucketsPowerOf2.toNat
  Prog.lift (.storeFactors conf.expandFactor conf.shrinkFactor)
  Prog.lift (.storeInfo bucketsInfo)

def rTableCoreInsertNoExpand (pEntry : Ptr) : Code K φ Unit := do
  let pBucketsInfo ← Prog.lift .loadInfo
  let bucketMask := (← Prog.lift (.nrBuckets pBucketsInfo)) - 1
  let bucketId := (← Prog.lift (.loadHash pEntry)) &&& bucketMask
  let pBucket := Ptr.head pBucketsInfo bucketId
  store pEntry (← load pBucket)
  store pBucket (some pEntry)
  Prog.lift .fetchAddSize

def rTableCoreExpandBuckets2x : Code K φ Unit := do
  let pOldInfo ← expandBucketsByFac2ReturnOld
  destroyAndFreeBuckets pOldInfo

def rTableCoreShrinkBuckets2x : Code K φ Bool := do
  match ← shrinkBucketsByFac2ReturnOld with
  | none => return false
  | some pOldInfo =>
    destroyAndFreeBuckets pOldInfo
    return true

section Resize

variable (fl : FloatOps φ)

def expandBucketsByFac2IfNecessary (nrElements nrBuckets : ℕ) : Code K φ Unit := do
  let expandFactor ← Prog.lift .expandFactor
  if fl.lt (fl.mul expandFactor (fl.ofSize nrBuckets)) (fl.ofSize nrElements) then
    rTableCoreExpandBuckets2x

def shrinkBucketsByFac2IfNecessary (nrElements nrBuckets : ℕ) : Code K φ Bool := do
  let shrinkFactor ← Prog.lift .shrinkFactor
  if fl.lt (fl.ofSize nrElements) (fl.mul shrinkFactor (fl.ofSize nrBuckets)) ∧ nrElements > 128 then
    rTableCoreShrinkBuckets2x
  else return false

/-! ### RCUHashTableCoreApi.h -/

def rTableCoreTryDetachNoShrink (hashVal : ℕ) (predict : Heap K φ → Ptr → Bool) :
    Code K φ (Option Ptr) := do
  let pBucketsInfo ← Prog.lift .loadInfo
  let bucketHash := (← Prog.lift (.nrBuckets pBucketsInfo)) - 1
  let bucketId := hashVal &&& bucketHash
  rcuSlistRemoveIf (.head pBucketsInfo bucketId) predict

/-- The second component is `*outIfAlreadyRcuSynrhonized`. -/
def rTableCoreTryDetachAutoShrink (hashVal : ℕ) (matchOp : Heap K φ → Ptr → Bool) :
    Code K φ (Option Ptr × Bool) := do
  match ← rTableCoreTryDetachNoShrink hashVal matchOp with
  | none => return (none, false)
  | some p =>
    let currentSize ← Prog.lift .loadSize
    let nrBuckets ← Prog.lift (.nrBuckets (← Prog.lift .loadInfo))
    let ifAlreadyRcuSynrhonized ← shrinkBucketsByFac2IfNecessary fl currentSize nrBuckets
    return (some p, ifAlreadyRcuSynrhonized)

def rTableCoreTryInsertNoExpand (pEntry : Ptr) (hashVal : ℕ)
    (binaryPredict : Heap K φ → Ptr → Ptr → Bool) : Code K φ Bool := do
  Prog.lift (.storeHash pEntry hashVal)
  let pBucketsInfo ← Prog.lift .loadInfo
  let bucketMask := (← Prog.lift (.nrBuckets pBucketsInfo)) - 1
  let bucketId := (← Prog.lift (.loadHash pEntry)) &&& bucketMask
  let inserted ← rcuSlistPrependIfNoMatch (.head pBucketsInfo bucketId) pEntry binaryPredict
  if inserted then Prog.lift .fetchAddSize
  return inserted

def rTableCoreFind (hashVal : ℕ) (predict : Heap K φ → Ptr → Bool) : Code K φ (Option Ptr) := do
  let pBucketsInfo ← Prog.lift .loadInfo
  let bucketHash := (← Prog.lift (.nrBuckets pBucketsInfo)) - 1
  let bucketId := hashVal &&& bucketHash
  rcuSlistFindIf (.head pBucketsInfo bucketId) predict

def rTableCoreTryInsert (pEntry : Ptr) (hashVal : ℕ)
    (matchOp : Heap K φ → Ptr → Ptr → Bool) : Code K φ Bool := do
  let inserted ← rTableCoreTryInsertNoExpand pEntry hashVal matchOp
  if !inserted then return false
  let currentSize ← Prog.lift .loadSize
  let nrBuckets ← Prog.lift (.nrBuckets (← Prog.lift .loadInfo))
  expandBucketsByFac2IfNecessary fl currentSize nrBuckets
  return true

def rTableCoreTryDetachAndSynchronize (hashVal : ℕ) (matchOp : Heap K φ → Ptr → Bool) :
    Code K φ (Option Ptr) := do
  let (pEntry, ifAlreadyRcuSynchronized) ← rTableCoreTryDetachAutoShrink fl hashVal matchOp
  if pEntry = none then return pEntry
  if !ifAlreadyRcuSynchronized then rcuSynchronize
  return pEntry

end Resize

end RcuTable
