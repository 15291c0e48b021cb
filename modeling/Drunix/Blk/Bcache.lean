import Drunix.Lib.Bytes
import Drunix.Lib.DList

/-!
# The block cache

`blk/bcache.c`: 64 slots of 4096 bytes, keyed by device and first sector,
written back when a slot is needed again or on a sync, with an intrusive list that
keeps the least recently used slot at its tail.

Mirroring notes:
- A device is its first contents and the sector writes it has taken since; a crash
  keeps a beginning of the latter. A sector read or write fails when the oracle
  `fails` says so at its turn; a write that fails leaves the sector as it was.
- A device is named by the address of its operations table, `0` being `NULL`;
  `canWrite` is `write_sector != 0`. Buffers are never `NULL`.
- A C array of `n` bytes is a `Buf` that is zero from `n` on (`Clipped n`).
- The walk of `acquire_slot` follows list pointers that it moves itself; it need
  not end. It is followed for `walk` slots and then counts as `Stop.hang`.
- The counters of `bcache_get_stats` are left out; nothing else reads them.
-/

namespace Drunix.Blk

open Lib Function

/-- How a call stops short: it returns an error, or never. -/
inductive Stop where
  | fail
  | hang
deriving DecidableEq, Repr

/-! ## Devices -/

/-- One sector write. -/
structure SectorWrite where
  dev : Nat
  lba : Nat
  data : Buf

/-- Contents of all devices, by device and byte address. -/
abbrev Bytes := Nat → Nat → UInt8

def SectorWrite.apply (bytes : Bytes) (w : SectorWrite) : Bytes := fun dev a =>
  if dev = w.dev ∧ a / 512 = w.lba then w.data (a % 512) else bytes dev a

structure Disk where
  base : Bytes
  log : List SectorWrite
  canWrite : Nat → Bool
  fails : Nat → Bool
  clock : Nat

/-- What is on the devices now. -/
def Disk.bytes (d : Disk) : Bytes := d.log.foldl SectorWrite.apply d.base

/-- `dev->read_sector`. -/
def Disk.readSector (d : Disk) (dev lba : Nat) : Option Buf × Disk :=
  if d.fails d.clock then (none, { d with clock := d.clock + 1 })
  else (some fun j => d.bytes dev (lba * 512 + j), { d with clock := d.clock + 1 })

/-- `dev->write_sector`. -/
def Disk.writeSector (d : Disk) (w : SectorWrite) : Bool × Disk :=
  if d.fails d.clock then (false, { d with clock := d.clock + 1 })
  else (true, { d with clock := d.clock + 1, log := d.log ++ [w] })

/-- Sector `i` of a block written at `lba`. -/
def sectorOf (dev lba : Nat) (buf : Buf) (i : Nat) : SectorWrite :=
  ⟨dev, u32 (lba + i), slice buf (i * 512) 512⟩

/-- The loop of `disk_read_block`. -/
def diskReadSectors (dev lba : Nat) : List Nat → Disk → Buf → Bool × Disk × Buf
  | [], d, buf => (true, d, buf)
  | i :: is, d, buf =>
    match d.readSector dev (u32 (lba + i)) with
    | (none, d) => (false, d, buf)
    | (some sec, d) => diskReadSectors dev lba is d (memcpy buf (i * 512) sec 0 512)

/-- `disk_read_block`. -/
def diskReadBlock (d : Disk) (dev lba : Nat) (buf : Buf) : Bool × Disk × Buf :=
  diskReadSectors dev lba (List.range 8) d buf

/-- The loop of `disk_write_block`. -/
def diskWriteSectors (dev lba : Nat) (buf : Buf) : List Nat → Disk → Bool × Disk
  | [], d => (true, d)
  | i :: is, d =>
    match d.writeSector (sectorOf dev lba buf i) with
    | (false, d) => (false, d)
    | (true, d) => diskWriteSectors dev lba buf is d

/-- `disk_write_block`. -/
def diskWriteBlock (d : Disk) (dev lba : Nat) (buf : Buf) : Bool × Disk :=
  if !d.canWrite dev then (false, d) else diskWriteSectors dev lba buf (List.range 8) d

/-! ## Slots and their list -/

/-- `bcache_slot_t`, without its list pointers. -/
structure Slot where
  dev : Nat
  lba : Nat
  valid : Bool
  dirty : Bool
  data : Buf

/-- Devices and cache. -/
structure Cache where
  disk : Disk
  slots : Nat → Slot
  lru : DList Nat
  walk : Nat

def slotCount : Nat := 64

def Cache.setSlot (b : Cache) (i : Nat) (s : Slot) : Cache :=
  { b with slots := update b.slots i s }

/-- `lru_touch`. -/
def lruTouch (b : Cache) (i : Nat) : Cache :=
  if b.lru.head = some i then b else { b with lru := (b.lru.detach i).pushFront i }

/-- `lru_demote`. -/
def lruDemote (b : Cache) (i : Nat) : Cache :=
  if b.lru.tail = some i then b else { b with lru := (b.lru.detach i).pushBack i }

def Slot.holds (s : Slot) (dev lba : Nat) : Bool :=
  s.valid && (decide (s.dev = dev) && decide (s.lba = lba))

/-- `find_slot`. -/
def findSlot (b : Cache) (dev lba : Nat) : Option Nat :=
  (List.range slotCount).find? fun i => (b.slots i).holds dev lba

/-- `slot_writeback`. -/
def slotWriteback (b : Cache) (i : Nat) : Bool × Cache :=
  let s := b.slots i
  if !s.valid || !s.dirty then (true, b)
  else
    match diskWriteBlock b.disk s.dev s.lba s.data with
    | (false, disk) => (false, { b with disk })
    | (true, disk) => (true, { b with disk }.setSlot i { s with dirty := false })

/-- The walk of `acquire_slot` from the slot `c` toward the head. -/
def acquireWalk : Nat → Option Nat → Cache → Except Stop Nat × Cache
  | _, none, b => (.error .fail, b)
  | 0, some _, b => (.error .hang, b)
  | walk + 1, some c, b =>
    let prev := b.lru.prev c
    if !(b.slots c).valid || !(b.slots c).dirty then (.ok c, b)
    else
      match slotWriteback b c with
      | (true, b) => (.ok c, b)
      | (false, b) => acquireWalk walk prev (lruTouch b c)

/-- `acquire_slot`. -/
def acquireSlot (b : Cache) (dev lba : Nat) : Except Stop Nat × Cache :=
  match findSlot b dev lba with
  | some i => (.ok i, lruTouch b i)
  | none =>
    match acquireWalk b.walk b.lru.tail b with
    | (.error e, b) => (.error e, b)
    | (.ok v, b) =>
      (.ok v, lruTouch (b.setSlot v { b.slots v with dev, lba, valid := false, dirty := false }) v)

/-! ## The calls -/

/-- One round of `bcache_init`'s loop. -/
def initSlot (b : Cache) (i : Nat) : Cache :=
  let lru := { b.lru with prev := update b.lru.prev i none,
                          next := update b.lru.next i none }
  { b with slots := update b.slots i
             { dev := 0, lba := 0, valid := false, dirty := false, data := (b.slots i).data }
           lru := lru.pushFront i }

/-- `bcache_init`. -/
def bcacheInit (b : Cache) : Cache :=
  (List.range slotCount).foldl initSlot { b with lru := { b.lru with head := none, tail := none } }

/-- `bcache_read`. -/
def bcacheRead (b : Cache) (dev lba : Nat) : Except Stop Buf × Cache :=
  if dev = 0 then (.error .fail, b)
  else
    match findSlot b dev lba with
    | some i => (.ok (b.slots i).data, lruTouch b i)
    | none =>
      match acquireSlot b dev lba with
      | (.error e, b) => (.error e, b)
      | (.ok i, b) =>
        match diskReadBlock b.disk dev lba (b.slots i).data with
        | (false, disk, data) =>
          (.error .fail,
            lruDemote ({ b with disk }.setSlot i
              { b.slots i with dev := 0, valid := false, dirty := false, data }) i)
        | (true, disk, data) =>
          (.ok data, { b with disk }.setSlot i { b.slots i with valid := true, dirty := false, data })

/-- `bcache_write`. -/
def bcacheWrite (b : Cache) (dev lba : Nat) (buf : Buf) : Except Stop Unit × Cache :=
  if dev = 0 then (.error .fail, b)
  else
    match acquireSlot b dev lba with
    | (.error e, b) => (.error e, b)
    | (.ok i, b) =>
      (.ok (), b.setSlot i { b.slots i with
        valid := true, dirty := true, data := memcpy (b.slots i).data 0 buf 0 4096 })

/-- `bcache_write_through`. -/
def bcacheWriteThrough (b : Cache) (dev lba : Nat) (buf : Buf) : Except Stop Unit × Cache :=
  if dev = 0 then (.error .fail, b)
  else
    match diskWriteBlock b.disk dev lba buf with
    | (false, disk) => (.error .fail, { b with disk })
    | (true, disk) =>
      let b := { b with disk }
      match findSlot b dev lba with
      | none => (.ok (), b)
      | some i =>
        (.ok (), lruTouch (b.setSlot i { b.slots i with
          dirty := false, data := memcpy (b.slots i).data 0 buf 0 4096 }) i)

/-- One round of `bcache_sync`'s loop. -/
def syncSlot (dev : Nat) (r : Bool × Cache) (i : Nat) : Bool × Cache :=
  let s := r.2.slots i
  if !s.valid || !s.dirty then r
  else if dev ≠ 0 ∧ s.dev ≠ dev then r
  else
    match slotWriteback r.2 i with
    | (ok, b) => (r.1 && ok, b)

/-- `bcache_sync`. -/
@[irreducible] def bcacheSync (b : Cache) (dev : Nat) : Bool × Cache :=
  (List.range slotCount).foldl (syncSlot dev) (true, b)

/-- `bcache_invalidate`. -/
def bcacheInvalidate (b : Cache) (dev lba : Nat) : Cache :=
  match findSlot b dev lba with
  | none => b
  | some i =>
    lruDemote (b.setSlot i { b.slots i with dev := 0, valid := false, dirty := false }) i

end Drunix.Blk
