import Akar.ByteFile
import Mathlib.Algebra.Group.Nat.Defs
import Mathlib.Data.List.AList

namespace Akar

open Function

abbrev PageNum := UInt64

abbrev PageKey := String × PageNum

structure Frame (n : Nat) where
  pinCount : UInt32
  isDirty : Bool
  clockRef : Bool
  data : Fin n → UInt8

namespace Frame

variable {n : Nat}

def new (data : Fin n → UInt8) : Frame n := ⟨0, false, true, data⟩

def pin (f : Frame n) : Frame n := { f with pinCount := f.pinCount + 1 }

def unpin (f : Frame n) : Frame n := if 0 < f.pinCount then { f with pinCount := f.pinCount - 1 } else f

def isPinned (f : Frame n) : Bool := 0 < f.pinCount

def access (f : Frame n) : Frame n := { f.pin with clockRef := true }

/-- What a caller does with the frame `pin_mut` gave it: overwrite the bytes and mark it dirty. -/
def overwrite (f : Frame n) : Option (Fin n → UInt8) → Frame n
  | some data => { f with data := data, isDirty := true }
  | none => f

end Frame

structure ReadaheadPolicy where
  enabled : Bool
  window : Nat

structure Io where
  reads : PageKey → Bool
  writes : PageKey → Bool

def Io.ok : Io := ⟨fun _ => true, fun _ => true⟩

/-- `BufferManager` with pages of `n` bytes, its account with the memory manager and the files on
disk. A memory map is known by its length: within it the map shows the file as it is now. -/
structure BufferManager (n : Nat) where
  maxFrames : Nat
  useMmap : Bool
  readahead : ReadaheadPolicy
  frames : AList fun _ : PageKey => Frame n
  files : String → Option String
  clockHand : Nat
  clockOrder : List PageKey
  mmapRegions : String → Option Nat
  lastAccessed : String → Option PageNum
  prevLastAccessed : String → Option PageNum
  charged : Nat
  disk : String → Option (List UInt8)

namespace BufferManager

variable {n : Nat}

def new (maxMemory : Nat) (useMmap : Bool) (readahead : ReadaheadPolicy)
    (disk : String → Option (List UInt8)) :
    BufferManager n where
  maxFrames := if 0 < maxMemory then maxMemory / n else 1000
  useMmap := useMmap
  readahead := readahead
  frames := ∅
  files := fun _ => none
  clockHand := 0
  clockOrder := []
  mmapRegions := fun _ => none
  lastAccessed := fun _ => none
  prevLastAccessed := fun _ => none
  charged := 0
  disk := disk

def registerFile (bm : BufferManager n) (name path : String) : BufferManager n :=
  { bm with files := update bm.files name (some path) }

def numFrames (bm : BufferManager n) : Nat := bm.frames.entries.length

def setFrame (bm : BufferManager n) (k : PageKey) (f : Frame n) : BufferManager n :=
  { bm with frames := bm.frames.insert k f }

def load (bm : BufferManager n) (k : PageKey) (f : Frame n) : BufferManager n := { bm with
    frames := bm.frames.insert k f
    clockOrder := bm.clockOrder ++ [k]
    charged := bm.charged + n }

def track (bm : BufferManager n) (k : PageKey) : BufferManager n := { bm with
    prevLastAccessed := match bm.lastAccessed k.1 with
      | some prev => update bm.prevLastAccessed k.1 (some prev)
      | none => bm.prevLastAccessed
    lastAccessed := update bm.lastAccessed k.1 (some k.2) }

/-- The offset of a page in its file, in 64-bit arithmetic. -/
def offset (n : Nat) (page : PageNum) : Nat := (page * UInt64.ofNat n).toNat

def writeToDisk (bm : BufferManager n) (k : PageKey) (data : Fin n → UInt8) : BufferManager n :=
  match bm.files k.1 with
  | some path =>
    { bm with
      disk := update bm.disk path
        (some (ByteFile.writeAt ((bm.disk path).getD []) (offset n k.2) data)) }
  | none => bm

/-- The first part of `read_mmap`: a file is mapped when it is first read, and never again. -/
def mapFile (bm : BufferManager n) (file : String) : BufferManager n :=
  match bm.useMmap, bm.files file with
  | true, some path =>
    match bm.mmapRegions path, bm.disk path with
    | none, some bytes =>
      { bm with mmapRegions := update bm.mmapRegions path (some bytes.length) }
    | _, _ => bm
  | _, _ => bm

/-- The bytes `read_syscall` or, once the file is mapped, `read_mmap` returns: a map that does not
cover the whole page gives zeros. -/
def pageBytes (bm : BufferManager n) (k : PageKey) : Fin n → UInt8 := match bm.files k.1 with
  | none => fun _ => 0
  | some path =>
    if bm.useMmap then
      match bm.mmapRegions path with
      | none => fun _ => 0
      | some len =>
        if len < (offset n k.2 + n) % 2 ^ 64 then fun _ => 0
        else ByteFile.readAt ((bm.disk path).getD []) (offset n k.2) n
    else ByteFile.readAt ((bm.disk path).getD []) (offset n k.2) n

def remove (bm : BufferManager n) (k : PageKey) (i : Nat) : BufferManager n := { bm with
    frames := bm.frames.erase k
    clockOrder := bm.clockOrder.eraseIdx i
    charged := bm.charged - n }

/-- The loop of `evict`; `len` is the length of the clock list when it starts. The second component
says whether the victim could be written. -/
def sweep (io : Io) (len : Nat) : Nat → BufferManager n → BufferManager n × Bool
  | 0, bm => (bm, true)
  | turns + 1, bm =>
    let hand := if len ≤ bm.clockHand then 0 else bm.clockHand
    match bm.clockOrder[hand]? with
    | none => ({ bm with clockHand := hand }, true)
    | some k =>
      match bm.frames.lookup k with
      | none => sweep io len turns { bm with clockHand := hand }
      | some f =>
        if f.isPinned then sweep io len turns { bm with clockHand := hand + 1 }
        else if f.clockRef then
          sweep io len turns { bm.setFrame k { f with clockRef := false } with clockHand := hand + 1 }
        else if f.isDirty then
          if io.writes k then ({ (bm.writeToDisk k f.data).remove k hand with clockHand := hand }, true)
          else ({ bm with clockHand := hand }, false)
        else ({ bm.remove k hand with clockHand := hand }, true)

def evict (bm : BufferManager n) (io : Io) : BufferManager n × Bool :=
  if bm.clockOrder = [] then (bm, true) else sweep io bm.clockOrder.length (bm.clockOrder.length + 1) bm

def ahead (bm : BufferManager n) (k : PageKey) : List PageKey :=
  (List.range bm.readahead.window).map fun i => (k.1, k.2 + UInt64.ofNat (i + 1))

def prefetch (io : Io) : List PageKey → BufferManager n → BufferManager n
  | [], bm => bm
  | k :: ks, bm =>
    if k ∈ bm.frames then prefetch io ks bm
    else if bm.maxFrames ≤ bm.numFrames then bm
    else if io.reads k then
      prefetch io ks ((bm.mapFile k.1).load k (.new ((bm.mapFile k.1).pageBytes k)))
    else prefetch io ks bm

def maybeReadahead (bm : BufferManager n) (io : Io) (k : PageKey) : BufferManager n :=
  if bm.readahead.enabled ∧ bm.readahead.window ≠ 0 then
    match bm.prevLastAccessed k.1 with
    | some prev => if 0 < k.2 ∧ prev = k.2 - 1 then prefetch io (bm.ahead k) bm else bm
    | none => bm
  else bm

/-- The rest of `pin` once there is room: the page is read, and kept with its first pin. -/
def fault (bm : BufferManager n) (io : Io) (k : PageKey) : BufferManager n × Option (Frame n) :=
  if io.reads k then
    let f := (Frame.new ((bm.mapFile k.1).pageBytes k)).pin
    ((((bm.mapFile k.1).load k f).track k).maybeReadahead io k, some f)
  else (bm, none)

def pin (bm : BufferManager n) (io : Io) (k : PageKey) : BufferManager n × Option (Frame n) :=
  match bm.frames.lookup k with
  | some f => ((bm.setFrame k f.access).track k, some f.access)
  | none =>
    if bm.maxFrames ≤ bm.numFrames then
      if (bm.evict io).2 then (bm.evict io).1.fault io k else ((bm.evict io).1, none)
    else bm.fault io k

def accessMut (bm : BufferManager n) (k : PageKey) (write : Option (Fin n → UInt8)) : BufferManager n :=
  match bm.frames.lookup k with
  | some f => bm.setFrame k (f.access.overwrite write)
  | none => bm

/-- `pin_mut`: a page that is not resident is first brought in by `pin`. The second component says
whether the call succeeded. -/
def pinMut (bm : BufferManager n) (io : Io) (k : PageKey) (write : Option (Fin n → UInt8)) :
    BufferManager n × Bool :=
  if k ∈ bm.frames then (bm.accessMut k write, true)
  else if (bm.pin io k).2.isSome then ((bm.pin io k).1.accessMut k write, true)
  else ((bm.pin io k).1, false)

def unpin (bm : BufferManager n) (k : PageKey) : BufferManager n := match bm.frames.lookup k with
  | some f => bm.setFrame k f.unpin
  | none => bm

def flush (bm : BufferManager n) (io : Io) (k : PageKey) : BufferManager n × Bool :=
  match bm.frames.lookup k with
  | some f =>
    if f.isDirty then
      if io.writes k then ((bm.writeToDisk k f.data).setFrame k { f with isDirty := false },
        true) else (bm, false)
    else (bm, true)
  | none => (bm, true)

def flushKeys (io : Io) : List PageKey → BufferManager n → BufferManager n
  | [], bm => bm
  | k :: ks, bm => if (bm.flush io k).2 then flushKeys io ks (bm.flush io k).1 else (bm.flush io k).1

def dirtyKeys (bm : BufferManager n) : List PageKey :=
  (bm.frames.entries.filter (·.2.isDirty)).map (·.1)

def flushAll (bm : BufferManager n) (io : Io) : BufferManager n := flushKeys io bm.dirtyKeys bm

def retain (frames : AList fun _ : PageKey => Frame n) (keep : PageKey → Bool) : AList fun _ :
    PageKey => Frame n :=
  ⟨frames.entries.filter (keep ·.1), frames.nodupKeys.sublist List.filter_sublist⟩

/-- `drop_file`, which leaves the clock hand and the memory account as they are. -/
def dropFile (bm : BufferManager n) (file : String) : BufferManager n := { bm with
    frames := retain bm.frames (·.1 ≠ file)
    clockOrder := bm.clockOrder.filter (·.1 ≠ file)
    files := update bm.files file none
    lastAccessed := update bm.lastAccessed file none
    prevLastAccessed := update bm.prevLastAccessed file none
    mmapRegions := match bm.files file with
      | some path => update bm.mmapRegions path none
      | none => bm.mmapRegions }

end BufferManager

end Akar
