import EosVm.Source.DebugInfo
import Mathlib.Logic.Function.Basic

/-!
# Profiler

`profile_data` of `profile.hpp`. Items are numbered by their place in `items_storage`; a
`list_header` is `none` for `mru_list` and an item otherwise, and null is `none`. The write buffer
and the file hold 32-bit words. A null dereference, a copy past the end of the write buffer and a
loop that does not end have no result: a loop over a hash chain may take as many steps as there are
items. `::write` does not fail.
-/

set_option autoImplicit false

namespace EosVm

open Function

/-- A trace: the addresses of its frames, innermost first. -/
abbrev ProfileTrace := List (BitVec 32)

/-- `profile_data::item` without its list header; `len` is the length of `frames`. -/
structure ProfileItem where
  next : Option Nat := none
  bucket : BitVec 32 := 0xFFFFFFFF
  count : BitVec 32 := 0
  frames : ProfileTrace := []
  deriving DecidableEq, Repr

/-- The members of `profile_data`. `outbuf` are the first `outpos` bytes of the buffer. -/
structure ProfileData where
  addrMap : ProfileInstrMap
  outsize : Nat
  tableSize : Nat
  outbuf : List (BitVec 32) := []
  mruNext : Option Nat → Option Nat
  mruPrev : Option Nat → Option Nat
  items : Nat → ProfileItem := fun _ => {}
  table : Nat → Option Nat := fun _ => none
  file : List (BitVec 32) := []

namespace ProfileData

def maxFrames : Nat := 251

/-- The value of `bucket` outside the table. -/
def noBucket : BitVec 32 := 0xFFFFFFFF

def flush (d : ProfileData) : ProfileData := { d with file := d.file ++ d.outbuf, outbuf := [] }

/-- The state after `write` of words. -/
def append (words : List (BitVec 32)) (d : ProfileData) : ProfileData :=
  let d := if d.outsize ≤ 4 * words.length + 4 * d.outbuf.length then d.flush else d
  { d with outbuf := d.outbuf ++ words }

/-- `write` of words. -/
def write (words : List (BitVec 32)) (d : ProfileData) : Option ProfileData :=
  let d := d.append words
  if 4 * d.outbuf.length ≤ d.outsize then some d else none

def header (intervalUs : BitVec 32) : List (BitVec 32) := [0, 3, 0, intervalUs, 0]

def trailer : List (BitVec 32) := [0, 1, 0]

/-- The words from `count` on. -/
def record (item : ProfileItem) : List (BitVec 32) :=
  item.count :: BitVec.ofNat 32 item.frames.length :: item.frames

/-- Assignment to a member of an item. -/
def setItem (i : Nat) (item : ProfileItem) (d : ProfileData) : ProfileData :=
  { d with items := update d.items i item }

def setNext (h next : Option Nat) (d : ProfileData) : ProfileData :=
  { d with mruNext := update d.mruNext h next }

def setPrev (h prev : Option Nat) (d : ProfileData) : ProfileData :=
  { d with mruPrev := update d.mruPrev h prev }

/-- `list_header::unlink`. -/
def unlink (h : Option Nat) (d : ProfileData) : ProfileData :=
  let d := d.setPrev (d.mruNext h) (d.mruPrev h)
  d.setNext (d.mruPrev h) (d.mruNext h)

def moveToHead (newHead : Nat) (d : ProfileData) : ProfileData :=
  let d := d.unlink (some newHead)
  let d := d.setNext (some newHead) (d.mruNext none)
  let d := d.setPrev (some newHead) none
  let d := d.setPrev (d.mruNext none) (some newHead)
  d.setNext none (some newHead)

/-- The pointer in a slot: the one of the table, or `next` of an item. -/
def slot (bucket : Nat) (entry : Option Nat) (d : ProfileData) : Option Nat :=
  match entry with
  | none => d.table bucket
  | some p => (d.items p).next

def setSlot (bucket : Nat) (entry value : Option Nat) (d : ProfileData) : ProfileData :=
  match entry with
  | none => { d with table := update d.table bucket value }
  | some p => d.setItem p { d.items p with next := value }

/-- The loop of `evict_oldest`. -/
def unlinkEntry (bucket result : Nat) (d : ProfileData) : Nat → Option Nat → Option ProfileData
  | 0, _ => none
  | fuel + 1, entry =>
    match d.slot bucket entry with
    | none => none
    | some p =>
      if p = result then some (d.setSlot bucket entry (d.items result).next)
      else unlinkEntry bucket result d fuel (some p)

def evictOldest (d : ProfileData) : Option (Nat × ProfileData) := do
  let result ← d.mruPrev none
  if (d.items result).bucket ≠ noBucket then
    let d ← d.write (record (d.items result))
    let d ← unlinkEntry (d.items result).bucket.toNat result d d.tableSize none
    pure (result, d.setItem result { d.items result with bucket := noBucket })
  else
    pure (result, d)

/-- The 64-bit words from `len` on; a trace of even length is followed by an extra zero. -/
def hashWords : List (BitVec 32) → List (BitVec 64)
  | [] => []
  | [low] => [low.setWidth 64]
  | low :: high :: rest => (high.setWidth 64 <<< 32 ||| low.setWidth 64) :: hashWords rest

def shiftMix (v : BitVec 64) : BitVec 64 := v ^^^ v >>> 47

/-- `item::hash`. -/
def hash (frames : ProfileTrace) : BitVec 64 :=
  let mul : BitVec 64 := 0xc6a4a7935bd1e995
  let words := hashWords (BitVec.ofNat 32 frames.length :: frames)
  let hash := words.foldl (fun hash val => (hash ^^^ shiftMix (val * mul) * mul) * mul)
    (0xbadd00d00 ^^^ BitVec.ofNat 64 words.length * 8 * mul)
  shiftMix (shiftMix hash * mul)

/-- `hash & (table_size - 1)`. -/
def tableIndex (frames : ProfileTrace) (d : ProfileData) : Nat :=
  (hash frames).toNat &&& (d.tableSize - 1)

/-- The loop of `insert_hash`: the entry with the trace, if there is one. -/
def findTrace (frames : ProfileTrace) (d : ProfileData) : Nat → Option Nat → Option (Option Nat)
  | _, none => some none
  | 0, some _ => none
  | fuel + 1, some p =>
    if frames = (d.items p).frames then some (some p)
    else findTrace frames d fuel (d.items p).next

def insertHash (newItem : Nat) (d : ProfileData) : Option ProfileData := do
  let item := d.items newItem
  let idx := d.tableIndex item.frames
  let found ← findTrace item.frames d d.tableSize (d.table idx)
  match found with
  | some p =>
    let d := d.setItem p { d.items p with count := (d.items p).count + 1 }
    pure (d.moveToHead p)
  | none =>
    let d := d.setItem newItem
      { item with next := d.table idx, bucket := BitVec.ofNat 32 idx, count := 1 }
    let d := { d with table := update d.table idx (some newItem) }
    pure (d.moveToHead newItem)

/-- The inner loop of `flush_hash`. -/
def flushChain : Nat → Option Nat → ProfileData → Option ProfileData
  | _, none, d => some d
  | 0, some _, _ => none
  | fuel + 1, some p, d => do
    let d ← d.write (record (d.items p))
    flushChain fuel (d.items p).next (d.setItem p { d.items p with bucket := noBucket })

/-- The loop of `flush_hash` over the table from `i` on. -/
def flushFrom (i : Nat) (d : ProfileData) : Nat → Option ProfileData
  | 0 => some d
  | buckets + 1 => do
    let d ← flushChain d.tableSize (d.table i) d
    flushFrom (i + 1) { d with table := update d.table i none } buckets

def flushHash (d : ProfileData) : Option ProfileData := flushFrom 0 d d.tableSize

/-- The loop of `handle_tick`, with the frames so far. -/
def translateFrames (m : ProfileInstrMap) : List (BitVec 64) → ProfileTrace → Option ProfileTrace
  | [], frames => some frames
  | pc :: data, frames =>
    if frames.length < maxFrames then do
      let addr ← m.translate pc
      if addr ≠ ProfileInstrMap.noAddress then
        translateFrames m data (frames ++ [if 0 < frames.length then addr + 1 else addr])
      else
        translateFrames m data frames
    else
      some frames

def handleTick (data : List (BitVec 64)) (d : ProfileData) : Option ProfileData := do
  let (entry, d) ← d.evictOldest
  let frames ← translateFrames d.addrMap data []
  if frames ≠ [] then
    insertHash entry (d.setItem entry { d.items entry with frames := frames })
  else
    pure d

/-- The links after the loop of the constructor. -/
def initNext (hashTableSize : Nat) : Option Nat → Option Nat
  | none => some 0
  | some i => if i + 1 < hashTableSize then some (i + 1) else none

def initPrev (hashTableSize : Nat) : Option Nat → Option Nat
  | none => some (hashTableSize - 1)
  | some i => if i = 0 then none else some (i - 1)

/-- The members that the constructor sets up. -/
def initial (m : ProfileInstrMap) (bufferSize hashTableSize : Nat) : ProfileData where
  addrMap := m
  outsize := bufferSize
  tableSize := hashTableSize
  mruNext := initNext hashTableSize
  mruPrev := initPrev hashTableSize

/-- The constructor. -/
def construct (m : ProfileInstrMap) (bufferSize hashTableSize : Nat) (intervalUs : BitVec 32) :
    Option ProfileData :=
  (initial m bufferSize hashTableSize).write (header intervalUs)

/-- The destructor. -/
def destruct (d : ProfileData) : Option ProfileData := do
  let d ← d.flushHash
  let d ← d.write trailer
  pure d.flush

/-- Calls of `handle_tick`. -/
def handleTicks : List (List (BitVec 64)) → ProfileData → Option ProfileData
  | [], d => some d
  | data :: ticks, d => do
    let d ← d.handleTick data
    handleTicks ticks d

end ProfileData

end EosVm
