import Mathlib.Algebra.GroupWithZero.Nat
import Wirth.Lib.Extent

namespace Wirth.Kernel.UsbMassStorage

open Wirth.Lib

def kCbwSignature : UInt32 := 0x43425355

def kCswSignature : UInt32 := 0x53425355

structure Cbw where
  signature : UInt32
  tag : UInt32
  dataLen : Nat
  flags : UInt8
  lun : UInt8
  cbLen : Nat
  cb : List UInt8
  deriving DecidableEq

structure Csw where
  signature : UInt32
  tag : UInt32
  status : UInt8
  deriving DecidableEq

def be32 (n : Nat) : List UInt8 :=
  [UInt8.ofNat (n / 2 ^ 24), UInt8.ofNat (n / 2 ^ 16), UInt8.ofNat (n / 2 ^ 8), UInt8.ofNat n]

def beAt32 (bytes : List UInt8) (i : Nat) : Nat :=
  2 ^ 24 * (bytes.getD i 0).toNat + 2 ^ 16 * (bytes.getD (i + 1) 0).toNat +
    2 ^ 8 * (bytes.getD (i + 2) 0).toNat + (bytes.getD (i + 3) 0).toNat

def beAt16 (bytes : List UInt8) (i : Nat) : Nat :=
  2 ^ 8 * (bytes.getD i 0).toNat + (bytes.getD (i + 1) 0).toNat

inductive Command where
  | readCapacity
  | read (lba count : Nat)
  | write (lba count : Nat)
  | unknown
  deriving DecidableEq

def Command.ofCdb (cb : List UInt8) : Command :=
  if cb.getD 0 0 = 0x25 then .readCapacity
  else if cb.getD 0 0 = 0x28 then .read (beAt32 cb 2) (beAt16 cb 7)
  else if cb.getD 0 0 = 0x2A then .write (beAt32 cb 2) (beAt16 cb 7)
  else .unknown

-- The disk at the other end. If the host asks for more bytes than a command gives, the device may
-- fill up the transfer or end it early.
structure ScsiDisk where
  blocks : Nat
  sector : Disk
  filler : Option UInt8

namespace ScsiDisk

variable (d : ScsiDisk)

def accepts : Command → Bool
  | .readCapacity => true
  | .read lba count => lba + count ≤ d.blocks
  | .write lba count => lba + count ≤ d.blocks
  | .unknown => false

def answer : Command → List UInt8
  | .readCapacity => be32 (d.blocks - 1) ++ be32 512
  | .read lba count => if lba + count ≤ d.blocks then d.sector.bytes lba count else []
  | _ => []

def dataIn (command : Command) (length : Nat) : List UInt8 :=
  let bytes := (d.answer command).take length
  match d.filler with
  | none => bytes
  | some b => bytes ++ List.replicate (length - bytes.length) b

def dataOut (data : List UInt8) : Command → ScsiDisk
  | .write lba count => if lba + count ≤ d.blocks then { d with sector := d.sector.put lba count data } else d
  | _ => d

end ScsiDisk

structure Usb where
  tag : UInt32
  initialized : Bool
  blockSize : Nat
  blockCount : Nat
  disk : ScsiDisk

-- What a call leaves: the machine, the buffer and what is returned.
structure Transfer where
  usb : Usb
  buffer : List UInt8
  ok : Bool

def block (cdb : List UInt8) : List UInt8 := cdb.take 16 ++ List.replicate (16 - cdb.length) 0

-- The three stages. A transfer that ends early counts as failed.
def scsiXfer (usb : Usb) (cdb data : List UInt8) (dataLen : Nat) (dirIn : Bool) : Transfer :=
  let cbw : Cbw :=
    { signature := kCbwSignature
      tag := usb.tag
      dataLen := dataLen
      flags := if dirIn then 0x80 else 0
      lun := 0
      cbLen := cdb.length
      cb := block cdb }
  let usb := { usb with tag := usb.tag + 1 }
  let command := Command.ofCdb cbw.cb
  let received := if dirIn then usb.disk.dataIn command dataLen else []
  let buffer := received ++ data.drop received.length
  if dirIn ∧ received.length < dataLen then ⟨usb, buffer, false⟩
  else
    let disk := if dirIn then usb.disk else usb.disk.dataOut (data.take dataLen) command
    let csw : Csw :=
      { signature := kCswSignature
        tag := cbw.tag
        status := if usb.disk.accepts command then 0 else 1 }
    ⟨{ usb with disk := disk }, buffer,
      csw.signature = kCswSignature ∧ csw.tag = cbw.tag ∧ csw.status = 0⟩

def readCdb (cur chunk : Nat) : List UInt8 :=
  [0x28, 0] ++ be32 cur ++ [0, UInt8.ofNat (chunk / 2 ^ 8), UInt8.ofNat chunk, 0]

def writeCdb (cur chunk : Nat) : List UInt8 :=
  [0x2A, 0] ++ be32 cur ++ [0, UInt8.ofNat (chunk / 2 ^ 8), UInt8.ofNat chunk, 0]

-- A loop that reads in chunks of at most 32 sectors. The first number bounds the steps and is at
-- least the number of sectors that remain.
def readLoop (blockSize : Nat) (cdb : Nat → Nat → List UInt8) :
    Nat → Usb → Nat → Nat → List UInt8 → Transfer
  | 0, usb, _, _, out => ⟨usb, out, true⟩
  | fuel + 1, usb, cur, remaining, out =>
      if remaining = 0 then ⟨usb, out, true⟩
      else
        let chunk := if remaining > 32 then 32 else remaining
        let bytes := chunk * blockSize
        let t := scsiXfer usb (cdb cur chunk) (out.take bytes) bytes true
        if !t.ok then ⟨t.usb, t.buffer ++ out.drop bytes, false⟩
        else
          let rest := readLoop blockSize cdb fuel t.usb ((cur + chunk) % 2 ^ 64) (remaining - chunk)
            (out.drop bytes)
          ⟨rest.usb, t.buffer ++ rest.buffer, rest.ok⟩

def writeLoop (blockSize : Nat) (cdb : Nat → Nat → List UInt8) :
    Nat → Usb → Nat → Nat → List UInt8 → Usb × Bool
  | 0, usb, _, _, _ => (usb, true)
  | fuel + 1, usb, cur, remaining, data =>
      if remaining = 0 then (usb, true)
      else
        let chunk := if remaining > 32 then 32 else remaining
        let bytes := chunk * blockSize
        let t := scsiXfer usb (cdb cur chunk) (data.take bytes) bytes false
        if !t.ok then (t.usb, false)
        else writeLoop blockSize cdb fuel t.usb ((cur + chunk) % 2 ^ 64) (remaining - chunk) (data.drop bytes)

-- The command block of the registered read function is a constant.
def usbReadWrapper (usb : Usb) (lba : Nat) (buf : List UInt8) (count : Nat) : Transfer :=
  readLoop usb.blockSize (fun _ _ => [0x28, 0, 0, 0, 0, 0, 0, 0, 0, 0]) count usb lba count buf

def usbWriteWrapper (usb : Usb) (lba : Nat) (buf : List UInt8) (count : Nat) : Usb × Bool :=
  writeLoop usb.blockSize writeCdb count usb lba count buf

def readSectors (usb : Usb) (lba : Nat) (buf : Option (List UInt8)) (count : Nat) : Transfer :=
  match buf with
  | none => ⟨usb, [], false⟩
  | some buf =>
      if ¬usb.initialized ∨ count = 0 then ⟨usb, buf, false⟩
      else if usb.blockSize ≠ 512 then ⟨usb, buf, false⟩
      else readLoop 512 readCdb count usb lba count buf

def init (usb : Usb) : Usb :=
  let t := scsiXfer usb [0x25, 0, 0, 0, 0, 0, 0, 0, 0, 0] (List.replicate 8 0) 8 true
  let usb :=
    if t.ok then { t.usb with blockSize := beAt32 t.buffer 4, blockCount := beAt32 t.buffer 0 + 1 }
    else t.usb
  { usb with blockSize := if usb.blockSize = 0 then 512 else usb.blockSize, initialized := true }

section Commands

variable {cur chunk : Nat}

theorem be_bytes {n : Nat} (h : n < 2 ^ 32) :
    2 ^ 24 * (UInt8.ofNat (n / 2 ^ 24)).toNat + 2 ^ 16 * (UInt8.ofNat (n / 2 ^ 16)).toNat +
      2 ^ 8 * (UInt8.ofNat (n / 2 ^ 8)).toNat + (UInt8.ofNat n).toNat = n := by
  simp only [UInt8.toNat_ofNat']
  omega

theorem be_halfword {n : Nat} (h : n < 2 ^ 16) :
    2 ^ 8 * (UInt8.ofNat (n / 2 ^ 8)).toNat + (UInt8.ofNat n).toNat = n := by
  simp only [UInt8.toNat_ofNat']
  omega

theorem ofCdb_readCdb (hcur : cur < 2 ^ 32) (hchunk : chunk < 2 ^ 16) :
    Command.ofCdb (block (readCdb cur chunk)) = .read cur chunk := by
  have hlba : beAt32 (block (readCdb cur chunk)) 2 = cur := be_bytes hcur
  have hcount : beAt16 (block (readCdb cur chunk)) 7 = chunk := be_halfword hchunk
  grind [block, readCdb, Command.ofCdb]

theorem ofCdb_writeCdb (hcur : cur < 2 ^ 32) (hchunk : chunk < 2 ^ 16) :
    Command.ofCdb (block (writeCdb cur chunk)) = .write cur chunk := by
  have hlba : beAt32 (block (writeCdb cur chunk)) 2 = cur := be_bytes hcur
  have hcount : beAt16 (block (writeCdb cur chunk)) 7 = chunk := be_halfword hchunk
  grind [block, writeCdb, Command.ofCdb]

end Commands

section Transfers

variable {usb : Usb} {cdb data : List UInt8} {length cur chunk : Nat}

theorem scsiXfer_in {command : Command} (hcommand : Command.ofCdb (block cdb) = command)
    (haccepts : usb.disk.accepts command = true)
    (hlength : (usb.disk.dataIn command length).length = length) (hdata : data.length = length) :
    scsiXfer usb cdb data length true =
      ⟨{ usb with tag := usb.tag + 1 }, usb.disk.dataIn command length, true⟩ := by
  rw [scsiXfer]
  grind

theorem dataIn_read (d : ScsiDisk) (h : cur + chunk ≤ d.blocks) :
    d.dataIn (.read cur chunk) (chunk * 512) = d.sector.bytes cur chunk := by
  have hlength : (d.sector.bytes cur chunk).length = chunk * 512 := by
    rw [Disk.bytes_length, Nat.mul_comm]
  have htake : (d.answer (.read cur chunk)).take (chunk * 512) = d.sector.bytes cur chunk := by
    rw [ScsiDisk.answer, if_pos h, List.take_of_length_le (by omega)]
  rw [ScsiDisk.dataIn, htake, hlength, Nat.sub_self]
  grind

theorem scsiXfer_read (hdata : data.length = chunk * 512) (hdisk : cur + chunk ≤ usb.disk.blocks)
    (hcur : cur < 2 ^ 32) (hchunk : chunk < 2 ^ 16) :
    scsiXfer usb (readCdb cur chunk) data (chunk * 512) true =
      ⟨{ usb with tag := usb.tag + 1 }, usb.disk.sector.bytes cur chunk, true⟩ := by
  have hread := dataIn_read usb.disk hdisk
  rw [scsiXfer_in (ofCdb_readCdb hcur hchunk) (decide_eq_true hdisk) _ hdata, hread]
  rw [hread, Disk.bytes_length, Nat.mul_comm]

theorem scsiXfer_write (hdisk : cur + chunk ≤ usb.disk.blocks) (hcur : cur < 2 ^ 32)
    (hchunk : chunk < 2 ^ 16) : scsiXfer usb (writeCdb cur chunk) data (chunk * 512) false =
      ⟨{ usb with
        tag := usb.tag + 1
        disk := { usb.disk with sector := usb.disk.sector.put cur chunk data } }, data, true⟩ := by
  rw [scsiXfer]
  simp only [ofCdb_writeCdb hcur hchunk, Bool.false_eq_true, if_false, false_and, ScsiDisk.accepts,
    ScsiDisk.dataOut, hdisk, if_true, decide_true, List.length_nil, List.drop_zero, List.nil_append]
  rw [Disk.put_take (by omega)]
  simp

theorem ofCdb_zero : Command.ofCdb (block [0x28, 0, 0, 0, 0, 0, 0, 0, 0, 0]) = .read 0 0 := by decide

theorem answer_zero (d : ScsiDisk) : d.answer (.read 0 0) = [] := by
  rfl

theorem scsiXfer_short (hfiller : usb.disk.filler = none) (hlength : 0 < length) :
    (scsiXfer usb [0x28, 0, 0, 0, 0, 0, 0, 0, 0, 0] data length true).ok = false := by
  have hnothing : usb.disk.dataIn (.read 0 0) length = [] := by
    rw [ScsiDisk.dataIn, answer_zero, List.take_nil, hfiller]
  rw [scsiXfer]
  simp only [ofCdb_zero, if_true, hnothing, List.length_nil, hlength, and_self]

theorem scsiXfer_filled {b : UInt8} (hfiller : usb.disk.filler = some b) (hdata : data.length = length) :
    scsiXfer usb [0x28, 0, 0, 0, 0, 0, 0, 0, 0, 0] data length true =
      ⟨{ usb with tag := usb.tag + 1 }, List.replicate length b, true⟩ := by
  have hfilled : usb.disk.dataIn (.read 0 0) length = List.replicate length b := by
    rw [ScsiDisk.dataIn, answer_zero, List.take_nil, hfiller]
    rfl
  have haccepts : usb.disk.accepts (.read 0 0) = true := decide_eq_true (Nat.zero_le usb.disk.blocks)
  grind [scsiXfer_in, ofCdb_zero]

end Transfers

section Loops

variable {usb : Usb}

theorem readLoop_eq {blockSize limit : Nat} {cdb f : Nat → Nat → List UInt8}
    (hxfer : ∀ tag cur chunk out, 0 < chunk → chunk ≤ 32 → cur + chunk ≤ limit →
      out.length = chunk * blockSize → scsiXfer { usb with tag := tag } (cdb cur chunk) out
        (chunk * blockSize) true = ⟨{ usb with tag := tag + 1 }, f cur chunk, true⟩)
    (hzero : ∀ cur, f cur 0 = []) (hadd : ∀ cur a b, f cur (a + b) = f cur a ++ f (cur + a) b)
    (hlimit : limit ≤ 2 ^ 32) {fuel remaining cur : Nat} {out : List UInt8} (tag : UInt32)
    (hfuel : remaining ≤ fuel) (hend : cur + remaining ≤ limit) (hout : out.length = remaining * blockSize) :
    ∃ tag', readLoop blockSize cdb fuel { usb with tag := tag } cur remaining out =
      ⟨{ usb with tag := tag' }, f cur remaining, true⟩ := by
  induction fuel generalizing remaining cur out tag with
  | zero =>
    obtain rfl : remaining = 0 := by omega
    rw [Nat.zero_mul, List.length_eq_zero_iff] at hout
    rw [hzero, hout]
    exact ⟨tag, rfl⟩
  | succ fuel ih =>
    rw [readLoop]
    by_cases hdone : remaining = 0
    · subst hdone
      rw [Nat.zero_mul, List.length_eq_zero_iff] at hout
      simp [hzero, hout]
    · rw [if_neg hdone]
      simp only
      generalize hchunk : (if remaining > 32 then 32 else remaining) = chunk
      have hbounds : 0 < chunk ∧ chunk ≤ 32 ∧ chunk ≤ remaining := by
        split_ifs at hchunk <;> omega
      have hsplit : remaining * blockSize = chunk * blockSize + (remaining - chunk) * blockSize := by
        rw [← Nat.add_mul, Nat.add_sub_cancel' hbounds.2.2]
      have hlater : (out.drop (chunk * blockSize)).length = (remaining - chunk) * blockSize := by
        rw [List.length_drop]
        omega
      obtain ⟨tag', hrest⟩ := ih (tag + 1) (show remaining - chunk ≤ fuel by omega)
        (show cur + chunk + (remaining - chunk) ≤ limit by omega) hlater
      grind

theorem writeLoop_eq {fuel remaining cur : Nat} {data : List UInt8} (hfuel : remaining ≤ fuel)
    (h32 : cur + remaining ≤ 2 ^ 32) (hdisk : cur + remaining ≤ usb.disk.blocks) :
    ∃ tag', writeLoop 512 writeCdb fuel usb cur remaining data =
      ({ usb with
        tag := tag'
        disk := { usb.disk with sector := usb.disk.sector.put cur remaining data } }, true) := by
  induction fuel generalizing usb remaining cur data with
  | zero =>
    obtain rfl : remaining = 0 := by omega
    rw [Disk.put_zero]
    exact ⟨usb.tag, rfl⟩
  | succ fuel ih =>
    rw [writeLoop]
    by_cases hdone : remaining = 0
    · simpa [Disk.put_zero, hdone] using ⟨usb.tag, rfl⟩
    · simp only
      generalize hchunk : (if remaining > 32 then 32 else remaining) = chunk
      have hbounds : 0 < chunk ∧ chunk ≤ 32 ∧ chunk ≤ remaining := by
        split_ifs at hchunk <;> omega
      rw [scsiXfer_write (by omega) (by omega) (by omega), Nat.mod_eq_of_lt (by omega),
        Disk.put_take (by omega)]
      obtain ⟨tag', hrest⟩ := @ih { usb with
          tag := usb.tag + 1
          disk := { usb.disk with sector := usb.disk.sector.put cur chunk data } }
        (remaining - chunk) (cur + chunk) (data.drop (chunk * 512)) (by omega) (by omega)
        (by simp only; omega)
      grind [Disk.put_add, Nat.add_sub_cancel']

end Loops

variable {usb : Usb} {lba count : Nat} {buf : List UInt8}

theorem usbReadWrapper_short (hsize : usb.blockSize = 512)
    (hfiller : usb.disk.filler = none) (hcount : count ≠ 0) : (usbReadWrapper usb lba buf count).ok = false := by
  obtain ⟨n, rfl⟩ := Nat.exists_eq_succ_of_ne_zero hcount
  rw [usbReadWrapper, hsize, readLoop, if_neg hcount]
  grind [scsiXfer_short]

theorem usbReadWrapper_filled {b : UInt8}
    (hsize : usb.blockSize = 512) (hfiller : usb.disk.filler = some b) (h32 : lba + count ≤ 2 ^ 32)
    (hbuf : buf.length = 512 * count) :
    (usbReadWrapper usb lba buf count).ok = true ∧
      (usbReadWrapper usb lba buf count).buffer = List.replicate (512 * count) b := by
  obtain ⟨tag, hloop⟩ := @readLoop_eq usb 512 _ _ (fun _ n => List.replicate (n * 512) b)
    (fun _ _ _ out _ _ _ hout => scsiXfer_filled hfiller hout) (fun _ => rfl)
    (fun _ m n => by rw [Nat.add_mul, List.replicate_add]) h32 count count lba buf usb.tag le_rfl le_rfl
    (by rw [hbuf, Nat.mul_comm])
  simp [usbReadWrapper, Nat.mul_comm, hsize, hloop]

theorem readSectors_eq (hsize : usb.blockSize = 512)
    (hinit : usb.initialized = true) (hcount : count ≠ 0) (h32 : lba + count ≤ 2 ^ 32)
    (hdisk : lba + count ≤ usb.disk.blocks) (hbuf : buf.length = 512 * count) :
    (readSectors usb lba (some buf) count).ok = true ∧
      (readSectors usb lba (some buf) count).buffer = usb.disk.sector.bytes lba count := by
  obtain ⟨tag, hloop⟩ := @readLoop_eq usb 512 _ readCdb usb.disk.sector.bytes
    (fun tag cur chunk out hpos hle hend hout => @scsiXfer_read { usb with tag := tag } out cur chunk hout
      (Nat.le_trans hend hdisk) (by omega) (by omega)) (fun _ => rfl) (fun _ _ _ => Disk.bytes_add _)
    h32 count count lba buf usb.tag le_rfl le_rfl (by rw [hbuf, Nat.mul_comm])
  have hsectors : readSectors usb lba (some buf) count = readLoop 512 readCdb count usb lba count buf := by
    rw [readSectors]
    simp only [hinit, hcount, hsize, not_true, or_false, if_false, ne_eq]
  rw [hsectors, hloop]
  exact ⟨rfl, rfl⟩

theorem init_spec (usb : Usb) : (init usb).blockSize = 512 ∧ (init usb).initialized = true ∧
    (init usb).disk = usb.disk := by
  have hcapacity : Command.ofCdb (block [0x25, 0, 0, 0, 0, 0, 0, 0, 0, 0]) = .readCapacity := by decide
  have hin : usb.disk.dataIn .readCapacity 8 = be32 (usb.disk.blocks - 1) ++ be32 512 := by
    rw [ScsiDisk.dataIn]
    cases usb.disk.filler with
    | none => rfl
    | some b => exact List.append_nil _
  have hxfer := @scsiXfer_in usb _ (List.replicate 8 0) 8 _ hcapacity rfl (by rw [hin]; rfl)
    List.length_replicate
  rw [init, hxfer, hin]
  exact ⟨rfl, rfl, rfl⟩

-- Data that is written with the registered function is there, nothing else is changed, and the
-- kernel's own read function finds it. The registered read function asks for no sectors at all and
-- returns what the device fills the transfer with, if it does.
theorem written_data_read_iff (usb : Usb) {lba count : Nat} {data buf : List UInt8}
    (h32 : lba + count ≤ 2 ^ 32) (hdisk : lba + count ≤ usb.disk.blocks)
    (hdata : data.length = 512 * count) (hbuf : buf.length = 512 * count) :
    (usbWriteWrapper (init usb) lba data count).2 = true ∧
    (∀ k, ¬(lba ≤ k ∧ k < lba + count) →
      (usbWriteWrapper (init usb) lba data count).1.disk.sector k = usb.disk.sector k) ∧
    ((readSectors (usbWriteWrapper (init usb) lba data count).1 lba (some buf) count).ok = true ∧
      (readSectors (usbWriteWrapper (init usb) lba data count).1 lba (some buf) count).buffer = data ↔
        count ≠ 0) ∧
    ((usbReadWrapper (usbWriteWrapper (init usb) lba data count).1 lba buf count).ok = true ∧
      (usbReadWrapper (usbWriteWrapper (init usb) lba data count).1 lba buf count).buffer = data ↔
        count = 0 ∨ ∃ b, usb.disk.filler = some b ∧ data = List.replicate (512 * count) b) := by
  obtain ⟨hsize, hinit, hsame⟩ := init_spec usb
  obtain ⟨tag, hwrite⟩ := @writeLoop_eq (init usb) count count lba data le_rfl h32 (by rwa [hsame])
  rw [usbWriteWrapper, hsize, hwrite, hsame]
  generalize hafter : ({ init usb with
    tag := tag
    disk := { usb.disk with sector := usb.disk.sector.put lba count data } } : Usb) = after
  have hsize' : after.blockSize = 512 := by rw [← hafter, ← hsize]
  have hinit' : after.initialized = true := by rw [← hafter, ← hinit]
  have hsectors : after.disk.sector = usb.disk.sector.put lba count data := by rw [← hafter]
  have hblocks : after.disk.blocks = usb.disk.blocks := by rw [← hafter]
  have hfiller : after.disk.filler = usb.disk.filler := by rw [← hafter]
  refine ⟨rfl, fun k hk => ?_, ?_, ?_⟩
  · simp only [hsectors]
    exact Disk.put_other hk
  · by_cases hcount : count = 0
    · simp [readSectors, hcount]
    · have hread := readSectors_eq hsize' hinit' hcount h32 (by rwa [hblocks]) hbuf
      rw [hsectors, Disk.bytes_put hdata] at hread
      exact iff_of_true hread hcount
  · by_cases hcount : count = 0
    · have hbuf' : buf = data := by
        rw [hcount, Nat.mul_zero, List.length_eq_zero_iff] at hdata hbuf
        rw [hdata, hbuf]
      refine iff_of_true ?_ (.inl hcount)
      rw [usbReadWrapper, hcount, readLoop]
      exact ⟨rfl, hbuf'⟩
    · cases hfill : usb.disk.filler with
      | none =>
        have hshort := @usbReadWrapper_short after lba count buf hsize' (hfiller.trans hfill) hcount
        simp [hshort, hcount]
      | some b =>
        obtain ⟨hok, hbuffer⟩ := usbReadWrapper_filled hsize' (hfiller.trans hfill) h32 hbuf
        rw [hok, hbuffer]
        simp [hcount, eq_comm]

def smallUsb (filler : Option UInt8) : Usb := ⟨1, false, 0, 0, ⟨4, fun _ => .zero, filler⟩⟩

def sevens : List UInt8 := List.replicate 512 7

theorem one_sector_written_and_read :
    (usbWriteWrapper (init (smallUsb none)) 1 sevens 1).2 = true ∧
    (readSectors (usbWriteWrapper (init (smallUsb none)) 1 sevens 1).1 1 (some (List.replicate 512 0)) 1).buffer =
      sevens := by
  have hread := @written_data_read_iff (smallUsb none) 1 1 sevens (List.replicate 512 0) (by decide) (by decide)
    List.length_replicate List.length_replicate
  exact ⟨hread.1, (hread.2.2.1.mpr (by decide)).2⟩

-- The registered read function fails, or returns what the device fills the transfer with.
theorem registered_read_differs :
    (usbWriteWrapper (init (smallUsb none)) 1 sevens 1).2 = true ∧
    (usbReadWrapper (usbWriteWrapper (init (smallUsb none)) 1 sevens 1).1 1 (List.replicate 512 0) 1).ok = false ∧
    (usbReadWrapper (usbWriteWrapper (init (smallUsb (some 0))) 1 sevens 1).1 1 (List.replicate 512 9) 1).ok = true ∧
    (usbReadWrapper (usbWriteWrapper (init (smallUsb (some 0))) 1 sevens 1).1 1 (List.replicate 512 9) 1).buffer ≠
      sevens := by
  decide +kernel

end Wirth.Kernel.UsbMassStorage
