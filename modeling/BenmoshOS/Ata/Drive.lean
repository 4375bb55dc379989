import BenmoshOS.Ata.Driver

/-!
# The driver on a drive

The FAT16 driver is modelled over `Fat16.ataReadSector` and `Fat16.ataWriteSector`, which reach
a disk at once and fail by a fault pattern.  This file connects them to `drivers/ata/ata.c`.

* `Drive` — a drive behind the ports `0x1F0` to `0x1F7`: the task file, the status, transfers of
  one sector in LBA28, and for each command how long the drive stays busy, whether it fails, and
  what a failing write leaves in the sector.  A command that arrives while the drive is busy or
  wants data is not accepted.
* `Client` — a program that reads and writes sectors and goes on by what it has read.
* `driver_refines` — on a drive that answers every wait in time, a client over the driver does what
  it does over the FAT16 model's accesses, under a fault pattern that never recovers.
* `error_latches` — after an error status no call does anything any more.
-/

namespace BenmoshOS

namespace Ata

open Fat16 (Sector Disk Site Fs Io clean u16 setU16)

/-! ## The drive -/

/-- How a drive serves a command: for how many status reads it is busy, whether it fails, and what
a write that fails leaves in its sector. -/
structure Answer where
  busy : Nat
  fails : Bool
  left : Sector

/-- What the drive is about to do with the data port. -/
inductive Transfer where
  | none
  /-- Word `i` of sector `lba` is the next to be read. -/
  | input (lba i : Nat)
  /-- Word `i` for sector `lba` is the next to be written. -/
  | output (lba i : Nat) (buffer : Sector)

structure Drive where
  disk : Disk
  /-- The task file: sector count, LBA low, mid and high, and the device byte. -/
  count : UInt8
  low : UInt8
  mid : UInt8
  high : UInt8
  device : UInt8
  /-- The status reads for which BSY is still set. -/
  busy : Nat
  /-- The ERR bit. -/
  err : Bool
  transfer : Transfer
  answers : Nat → Answer

namespace Drive

/-- The sector the task file names. -/
def lba (d : Drive) : Nat :=
  d.low.toNat + 2 ^ 8 * d.mid.toNat + 2 ^ 16 * d.high.toNat + 2 ^ 24 * (d.device &&& 0x0F).toNat

/-- BSY alone while the drive is busy, then RDY with ERR, or RDY, with DRQ during a transfer. -/
def status (d : Drive) : UInt8 :=
  if d.busy ≠ 0 then 0x80
  else if d.err then 0x41
  else match d.transfer with
    | .none => 0x40
    | _ => 0x48

/-- The drive takes up its next answer; `transfer` is what follows when it does not fail. -/
def accept (d : Drive) (transfer : Transfer) : Drive :=
  { d with
    busy := (d.answers 0).busy
    err := (d.answers 0).fails
    transfer := if (d.answers 0).fails then .none else transfer
    answers := fun n => d.answers (n + 1) }

/-- A sector is being written: it holds `buffer`, unless the drive fails. -/
def store (d : Drive) (lba : Nat) (buffer : Sector) : Drive :=
  { d.accept .none with
    disk := d.disk.set lba (if (d.answers 0).fails then (d.answers 0).left else buffer) }

/-- A command: READ SECTORS, WRITE SECTORS or FLUSH CACHE.  The drive is addressed by LBA and
moves one sector a command. -/
def command (d : Drive) (c : UInt8) : Drive :=
  match d.transfer with
  | .input .. | .output .. => d
  | .none =>
      if d.busy ≠ 0 then d
      else if c = 0xE7 then d.store d.lba (d.disk d.lba)
      else if d.device &&& 0x50 = 0x40 ∧ d.count = 1 ∧ c = 0x20 then d.accept (.input d.lba 0)
      else if d.device &&& 0x50 = 0x40 ∧ d.count = 1 ∧ c = 0x30 then
        d.accept (.output d.lba 0 fun _ => 0)
      else { d with err := true }

/-- A word leaves the data port. -/
def takeWord (d : Drive) : UInt16 × Drive :=
  match d.transfer with
  | .input lba i => (UInt16.ofNat (u16 (d.disk lba) (2 * i)),
      { d with transfer := if i + 1 = 256 then .none else .input lba (i + 1) })
  | _ => (0, d)

/-- A word enters the data port; after the last one the sector is written. -/
def putWord (d : Drive) (word : UInt16) : Drive :=
  match d.transfer with
  | .output lba i buffer =>
      if i + 1 = 256 then d.store lba (setU16 buffer (2 * i) word.toNat)
      else { d with transfer := .output lba (i + 1) (setU16 buffer (2 * i) word.toNat) }
  | _ => d

end Drive

/-- The drive behind its ports. -/
def channel : Device Drive where
  inb port d := if port = 0x1F7 then (d.status, { d with busy := d.busy - 1 }) else (0, d)
  inw port d := if port = 0x1F0 then d.takeWord else (0, d)
  outb port value d :=
    if port = 0x1F2 then { d with count := value }
    else if port = 0x1F3 then { d with low := value }
    else if port = 0x1F4 then { d with mid := value }
    else if port = 0x1F5 then { d with high := value }
    else if port = 0x1F6 then { d with device := value }
    else if port = 0x1F7 then d.command value
    else d
  outw port word d := if port = 0x1F0 then d.putWord word else d

/-! ## One access -/

/-- The drive when BSY has gone. -/
def Drive.settled (d : Drive) : Drive := { d with busy := 0 }

/-- The drive once the task file names `lba`. -/
def Drive.addressed (d : Drive) (lba : UInt32) : Drive :=
  { d with
    device := ((0xE0 : UInt32) ||| ((lba >>> 24) &&& 0x0F)).toUInt8
    count := 1
    low := (lba &&& 0xFF).toUInt8
    mid := ((lba >>> 8) &&& 0xFF).toUInt8
    high := ((lba >>> 16) &&& 0xFF).toUInt8 }

/-- A sector buffer into which the first `i` words of `source` have been moved. -/
def moved (source buffer : Sector) : Nat → Sector
  | 0 => buffer
  | i + 1 => setU16 (moved source buffer i) (2 * i) (u16 source (2 * i))

theorem setU16_u16 (source b : Sector) (i k : Nat) :
    setU16 b i (u16 source i) k = if k = i ∨ k = i + 1 then source k else b k := by
  have h₀ := (source i).toNat_lt
  have hlow : UInt8.ofNat (u16 source i) = source i := by
    rw [← UInt8.toNat_inj, UInt8.toNat_ofNat', u16]
    omega
  have hhigh : UInt8.ofNat (u16 source i / 256) = source (i + 1) := by
    rw [← UInt8.toNat_inj, UInt8.toNat_ofNat', u16]
    have h₁ := (source (i + 1)).toNat_lt
    omega
  rw [setU16, hlow, hhigh, Fat16.setByte, Fat16.setByte]
  by_cases h : k = i + 1
  · simp [h]
  · by_cases h' : k = i
    · simp [h']
    · simp [h, h']

theorem moved_of_lt {source buffer : Sector} : ∀ {i k : Nat}, k < 2 * i →
    moved source buffer i k = source k
  | 0, _, h => absurd h (Nat.not_lt_zero _)
  | i + 1, k, h => by
      rw [moved, setU16_u16]
      by_cases hk : k = 2 * i ∨ k = 2 * i + 1
      · exact if_pos hk
      · rw [if_neg hk]
        exact moved_of_lt (by omega)

section Accesses

variable {d : Drive} {lba : UInt32}

/-- A wait whose patience exceeds the drive's ends with the verdict on the settled status. -/
theorem poll_settles {verdict : UInt8 → Option Bool} {b : Bool} (hbusy : verdict 0x80 = none)
    (hsettled : verdict d.settled.status = some b) (hd : d.busy < timeout) :
    (Ports.poll 0x1F7 verdict timeout).run channel d = (b, d.settled) := by
  have hzero : ({ d with busy := d.busy - 0 } : Drive) = d := rfl
  have hlast : ({ d with busy := d.busy - d.busy } : Drive) = d.settled := by
    rw [Nat.sub_self]
    rfl
  have hend : ({ d with busy := d.busy - (d.busy + 1) } : Drive) = d.settled := by
    rw [Nat.sub_eq_zero_of_le (Nat.le_succ _)]
    rfl
  have hrun := @Ports.run_poll _ channel 0x1F7 verdict timeout b d.busy
    (fun i => { d with busy := d.busy - i }) (fun i _ => rfl) (fun i hi => ?_) ?_ hd
  · rw [hzero, hend] at hrun
    exact hrun
  · have hne : d.busy - i ≠ 0 := Nat.sub_ne_zero_of_lt hi
    have hstatus : ({ d with busy := d.busy - i } : Drive).status = 0x80 := if_pos hne
    exact (congrArg verdict hstatus).trans hbusy
  · exact (congrArg (fun e : Drive => verdict e.status) hlast).trans hsettled

/-- The device byte: LBA mode on the first drive, and the top four bits of the LBA. -/
theorem device_addressed (d : Drive) (lba : UInt32) :
    (d.addressed lba).device &&& 0x50 = 0x40 ∧
      ((d.addressed lba).device &&& 0x0F).toNat = lba.toNat / 2 ^ 24 % 2 ^ 4 := by
  have hnibble : ∀ n < 2 ^ 4, (UInt8.ofNat (0xE0 ||| n)) &&& 0x50 = 0x40 ∧
      ((UInt8.ofNat (0xE0 ||| n)) &&& 0x0F).toNat = n := by decide
  have hdevice : (d.addressed lba).device = UInt8.ofNat (0xE0 ||| lba.toNat / 2 ^ 24 % 2 ^ 4) := by
    rw [← UInt8.toNat_inj, UInt8.toNat_ofNat']
    simp only [Drive.addressed, UInt32.toNat_toUInt8, UInt32.toNat_or, UInt32.toNat_and,
      UInt32.toNat_shiftRight]
    rw [show (15 : UInt32).toNat = 2 ^ 4 - 1 from rfl, Nat.and_two_pow_sub_one_eq_mod,
      Nat.shiftRight_eq_div_pow]
    rfl
  rw [hdevice]
  exact hnibble _ (Nat.mod_lt _ (by decide))

/-- The selected sector is the one asked for, modulo the 28 bits of an LBA. -/
theorem lba_addressed (d : Drive) (lba : UInt32) : (d.addressed lba).lba = lba.toNat % 2 ^ 28 := by
  have hmask : (255 : UInt32).toNat = 2 ^ 8 - 1 := rfl
  rw [Drive.lba, (device_addressed d lba).2]
  simp only [Drive.addressed, UInt32.toNat_toUInt8, UInt32.toNat_and, UInt32.toNat_shiftRight,
    hmask, Nat.and_two_pow_sub_one_eq_mod, Nat.shiftRight_eq_div_pow, UInt32.reduceToNat,
    Nat.reduceMod]
  omega

theorem run_select (command : UInt8) :
    (select lba command).run channel d = ((), (d.addressed lba).command command) := rfl

/-- The words of a sector arrive in the buffer. -/
theorem run_readWords {n : Nat} (hd : d.transfer = .input n 0) (buffer : Sector) :
    (Ports.forUpTo readRound 256 buffer).run channel d =
      (moved (d.disk n) buffer 256, { d with transfer := .none }) := by
  have hrounds := @Ports.run_forUpTo _ _ channel 256 readRound
    (fun i => (moved (d.disk n) buffer i,
      { d with transfer := if i = 256 then .none else .input n i })) fun i hi => ?_
  · rw [if_pos rfl, if_neg (by decide), ← hd] at hrounds
    exact hrounds
  · have hword : (UInt16.ofNat (u16 (d.disk n) (2 * i))).toNat = u16 (d.disk n) (2 * i) :=
      (UInt16.toNat_ofNat').trans (Nat.mod_eq_of_lt (Fat16.u16_lt _ _))
    simp only [readRound, Ports.run_bind, Ports.run_inw, Ports.run_pure, channel, if_true,
      Drive.takeWord, if_neg (Nat.ne_of_lt hi), hword, moved]

/-- The words of a buffer arrive in the drive, which then writes the sector. -/
theorem run_writeWords {n : Nat} {empty : Sector} (hd : d.transfer = .output n 0 empty)
    (source : Sector) : (Ports.forUpTo (writeRound source) 256 ()).run channel d =
      ((), d.store n (moved source empty 256)) := by
  have hword : ∀ i, (UInt16.ofNat (u16 source (2 * i))).toNat = u16 source (2 * i) := fun i =>
    (UInt16.toNat_ofNat').trans (Nat.mod_eq_of_lt (Fat16.u16_lt _ _))
  have hrounds := @Ports.run_forUpTo _ _ channel 255 (writeRound source)
    (fun i => ((), { d with transfer := .output n i (moved source empty i) })) fun i hi => ?_
  · have hstart : ({ d with transfer := .output n 0 (moved source empty 0) } : Drive) = d := by
      rw [moved, ← hd]
    rw [hstart] at hrounds
    -- the last word makes the drive write
    rw [Ports.forUpTo, Ports.run_bind, hrounds]
    simp only [writeRound, Ports.run_outw, channel, if_true, Drive.putWord, hword]
    rfl
  · have hne : i + 1 ≠ 256 := by omega
    simp only [writeRound, Ports.run_outw, channel, if_true, Drive.putWord, hword, if_neg hne, moved]

end Accesses

/-! ## Reads and writes -/

theorem timeout_pos : 0 < timeout := by decide

/-- The drive answers every wait in time, and no transfer is under way. -/
structure Drive.Prompt (d : Drive) : Prop where
  transfer : d.transfer = .none
  busy : d.busy < timeout
  answers : ∀ n, (d.answers n).busy < timeout

/-- The drive has not failed and never does. -/
def Drive.Healthy (d : Drive) : Prop := d.err = false ∧ ∀ n, (d.answers n).fails = false

/-- The 512 bytes of a sector buffer. -/
def block (b : Sector) : Fin 512 → UInt8 := fun i => b i

/-- The disks hold the same bytes. -/
def SameDisk (d d' : Disk) : Prop := ∀ lba, block (d lba) = block (d' lba)

theorem block_moved (source buffer : Sector) : block (moved source buffer 256) = block source :=
  funext fun i => moved_of_lt (Nat.lt_of_lt_of_le i.isLt (by decide))

section Accesses

variable {d : Drive} {lba : UInt32} {buffer : Sector}

theorem Drive.Prompt.settled (hnone : d.transfer = .none)
    (hanswers : ∀ n, (d.answers n).busy < timeout) : d.settled.Prompt :=
  ⟨hnone, timeout_pos, hanswers⟩

/-- An access to a drive in error fails at once. -/
theorem ready_of_err (hd : d.busy < timeout) (herr : d.err = true) :
    ataWaitReady.run channel d = (false, d.settled) := by
  have hstatus : d.settled.status = 0x41 := if_pos herr
  exact poll_settles rfl (congrArg readyVerdict hstatus) hd

theorem ready_of_ok (hd : d.busy < timeout) (herr : d.err = false) (hnone : d.transfer = .none) :
    ataWaitReady.run channel d = (true, d.settled) := by
  have hstatus : d.settled.status = 0x40 := by
    simp only [Drive.status, Drive.settled, herr, hnone]
    rfl
  exact poll_settles rfl (congrArg readyVerdict hstatus) hd

theorem drq_of_err (hd : d.busy < timeout) (herr : d.err = true) :
    ataWaitDrq.run channel d = (false, d.settled) := by
  have hstatus : d.settled.status = 0x41 := if_pos herr
  exact poll_settles rfl (congrArg drqVerdict hstatus) hd

theorem status_of_transfer (herr : d.err = false) (htransfer : d.transfer ≠ .none) :
    d.settled.status = 0x48 := by
  simp only [Drive.status, Drive.settled, herr]
  cases htransfer' : d.transfer with
  | none => exact absurd htransfer' htransfer
  | input _ _ => rfl
  | output _ _ _ => rfl

theorem drq_of_transfer (hd : d.busy < timeout) (herr : d.err = false)
    (htransfer : d.transfer ≠ .none) : ataWaitDrq.run channel d = (true, d.settled) :=
  poll_settles rfl (congrArg drqVerdict (status_of_transfer herr htransfer)) hd

/-- A drive that offers data passes for ready. -/
theorem ready_of_transfer (hd : d.busy < timeout) (herr : d.err = false)
    (htransfer : d.transfer ≠ .none) : ataWaitReady.run channel d = (true, d.settled) :=
  poll_settles rfl (congrArg readyVerdict (status_of_transfer herr htransfer)) hd

theorem command_read (hnone : d.transfer = .none) :
    (d.settled.addressed lba).command 0x20 =
      (d.settled.addressed lba).accept (.input (lba.toNat % 2 ^ 28) 0) := by
  have hmode := (device_addressed d.settled lba).1
  rw [← lba_addressed d.settled lba]
  simp only [Drive.command, hmode]
  simp [Drive.addressed, Drive.settled, hnone]

theorem command_write (hnone : d.transfer = .none) :
    (d.settled.addressed lba).command 0x30 =
      (d.settled.addressed lba).accept (.output (lba.toNat % 2 ^ 28) 0 fun _ => 0) := by
  have hmode := (device_addressed d.settled lba).1
  rw [← lba_addressed d.settled lba]
  simp only [Drive.command, hmode]
  simp [Drive.addressed, Drive.settled, hnone]

theorem command_flush (hnone : d.transfer = .none) :
    d.settled.command 0xE7 = d.settled.store d.lba (d.disk d.lba) := by
  have hnone' : d.settled.transfer = .none := hnone
  simp only [Drive.command, hnone']
  rfl

/-- A read on a drive that answers in time: either the drive is now in error and the read has
failed, or the buffer holds the sector. -/
theorem run_read (hd : d.Prompt) (lba : UInt32) (buffer : Sector) :
    ∃ r d', (ataReadSector lba buffer).run channel d = (r, d') ∧ d'.Prompt ∧ d'.disk = d.disk ∧
      (d.Healthy → d'.Healthy) ∧
      ((d'.err = true ∧ ∃ text, r = .error text) ∨
        (d.err = false ∧ ∃ b, r = .ok b ∧ block b = block (d.disk (lba.toNat % 2 ^ 28)))) := by
  rw [ataReadSector, Ports.run_bind]
  cases herr : d.err with
  | true =>
      rw [ready_of_err hd.busy herr]
      exact ⟨_, _, rfl, .settled hd.transfer hd.answers, rfl, fun h => h, Or.inl ⟨herr, _, rfl⟩⟩
  | false =>
      rw [ready_of_ok hd.busy herr hd.transfer]
      simp only [if_true, Ports.run_bind, run_select, command_read hd.transfer]
      cases hfails : (d.answers 0).fails with
      | true =>
          rw [drq_of_err (hd.answers 0) hfails]
          refine ⟨_, _, rfl, .settled (if_pos hfails) fun n => hd.answers (n + 1), rfl, ?_,
            Or.inl ⟨hfails, _, rfl⟩⟩
          exact fun h => absurd (h.2 0) (by simp [hfails])
      | false =>
          have htransfer : ∀ t, ((d.settled.addressed lba).accept t).transfer = t := fun t =>
            if_neg (by simp [Drive.addressed, Drive.settled, hfails])
          rw [drq_of_transfer (hd.answers 0) hfails (by simp [htransfer])]
          simp only [if_true, Ports.run_bind, Ports.run_pure]
          have hready : ((d.settled.addressed lba).accept
              (.input (lba.toNat % 2 ^ 28) 0)).settled.transfer = .input _ 0 := htransfer _
          rw [run_readWords hready]
          exact ⟨_, _, rfl, ⟨rfl, timeout_pos, fun n => hd.answers (n + 1)⟩, rfl,
            fun h => ⟨hfails, fun n => h.2 (n + 1)⟩, Or.inr ⟨trivial, _, rfl, block_moved _ _⟩⟩

theorem set_self (disk : Disk) (n : Nat) : disk.set n (disk n) = disk := by
  funext l
  by_cases h : l = n
  · rw [h, Fat16.Disk.set, if_pos rfl]
  · exact if_neg h

theorem set_set (disk : Disk) (n : Nat) (b b' : Sector) :
    (disk.set n b).set n b' = disk.set n b' := by
  funext l
  by_cases h : l = n
  · simp [Fat16.Disk.set, h]
  · simp [Fat16.Disk.set, h]

theorem sameDisk_set {disk disk' : Disk} {b b' : Sector} (h : SameDisk disk disk') (n : Nat)
    (hb : block b = block b') : SameDisk (disk.set n b) (disk'.set n b') := by
  intro l
  by_cases hl : l = n
  · rw [Fat16.Disk.set, Fat16.Disk.set, if_pos hl, if_pos hl, hb]
  · rw [Fat16.Disk.set, Fat16.Disk.set, if_neg hl, if_neg hl, h l]

/-- The flush, and the wait after it. -/
theorem run_flush (hnone : d.transfer = .none) (hanswers : ∀ n, (d.answers n).busy < timeout) :
    ∃ d', ataWaitReady.run channel (channel.outb 0x1F7 0xE7 d.settled) =
        (!(d.answers 0).fails, d') ∧ d'.Prompt ∧ d'.err = (d.answers 0).fails ∧
      (d'.answers = fun n => d.answers (n + 1)) ∧
      d'.disk = d.disk.set d.lba (if (d.answers 0).fails then (d.answers 0).left
        else d.disk d.lba) := by
  have hflush : channel.outb 0x1F7 0xE7 d.settled = d.settled.store d.lba (d.disk d.lba) :=
    command_flush hnone
  have hend : (d.settled.store d.lba (d.disk d.lba)).transfer = .none := ite_self _
  refine ⟨(d.settled.store d.lba (d.disk d.lba)).settled, ?_, .settled hend
    (fun n => hanswers (n + 1)), rfl, rfl, rfl⟩
  rw [hflush]
  cases hfails : (d.answers 0).fails with
  | true => exact ready_of_err (hanswers 0) hfails
  | false => exact ready_of_ok (hanswers 0) hfails hend

/-- A write on a drive that answers in time: either the drive is now in error, the write has failed
and its sector holds anything, or the sector holds the buffer. -/
theorem run_write (hd : d.Prompt) (lba : UInt32) (buffer : Sector) :
    ∃ r d', (ataWriteSector lba buffer).run channel d = (r, d') ∧ d'.Prompt ∧
      (d.Healthy → d'.Healthy) ∧
      ((d'.err = true ∧ (∃ text, r = .error text) ∧
          ∃ left, d'.disk = d.disk.set (lba.toNat % 2 ^ 28) left) ∨
        (d.err = false ∧ r = .ok () ∧
          SameDisk d'.disk (d.disk.set (lba.toNat % 2 ^ 28) buffer))) := by
  rw [ataWriteSector, Ports.run_bind]
  cases herr : d.err with
  | true =>
      rw [ready_of_err hd.busy herr]
      exact ⟨_, _, rfl, .settled hd.transfer hd.answers, fun h => h,
        Or.inl ⟨herr, ⟨_, rfl⟩, _, (set_self _ _).symm⟩⟩
  | false =>
      rw [ready_of_ok hd.busy herr hd.transfer]
      simp only [if_true, Ports.run_bind, run_select, command_write hd.transfer]
      cases hfails : (d.answers 0).fails with
      | true =>
          rw [drq_of_err (hd.answers 0) hfails]
          exact ⟨_, _, rfl, .settled (if_pos hfails) fun n => hd.answers (n + 1),
            fun h => absurd (h.2 0) (by simp [hfails]),
            Or.inl ⟨hfails, ⟨_, rfl⟩, _, (set_self _ _).symm⟩⟩
      | false =>
          have htransfer : ∀ t, ((d.settled.addressed lba).accept t).transfer = t := fun t =>
            if_neg (by simp [Drive.addressed, Drive.settled, hfails])
          rw [drq_of_transfer (hd.answers 0) hfails (by simp [htransfer])]
          have hready : ((d.settled.addressed lba).accept (.output (lba.toNat % 2 ^ 28) 0
              fun _ => 0)).settled.transfer = .output _ 0 _ := htransfer _
          simp only [if_true, Ports.run_bind, run_writeWords hready]
          generalize hwritten : Drive.store _ (lba.toNat % 2 ^ 28) _ = d₂
          obtain ⟨hnone, hbusy, herr₂, hanswers, hlba, hdisk⟩ : d₂.transfer = .none ∧
              d₂.busy = (d.answers 1).busy ∧ d₂.err = (d.answers 1).fails ∧
              (d₂.answers = fun n => d.answers (n + 2)) ∧ d₂.lba = lba.toNat % 2 ^ 28 ∧
              d₂.disk = d.disk.set (lba.toNat % 2 ^ 28) (if (d.answers 1).fails
                then (d.answers 1).left else moved buffer (fun _ => 0) 256) := by
            rw [← hwritten]
            exact ⟨ite_self _, rfl, rfl, rfl, lba_addressed d.settled lba, rfl⟩
          have hprompt : d₂.busy < timeout := hbusy ▸ hd.answers 1
          cases hfails₁ : (d.answers 1).fails with
          | true =>
              rw [ready_of_err hprompt (herr₂.trans hfails₁)]
              exact ⟨_, _, rfl, .settled hnone (hanswers ▸ fun n => hd.answers (n + 2)),
                fun h => absurd (h.2 1) (by simp [hfails₁]),
                Or.inl ⟨herr₂.trans hfails₁, ⟨_, rfl⟩, _, hdisk⟩⟩
          | false =>
              rw [ready_of_ok hprompt (herr₂.trans hfails₁) hnone]
              obtain ⟨d₃, hflush, hprompt₃, herr₃, hanswers₃, hdisk₃⟩ :=
                run_flush hnone (hanswers ▸ fun n => hd.answers (n + 2))
              simp only [hanswers, hlba, hdisk] at hflush herr₃ hanswers₃ hdisk₃
              simp only [if_true, Ports.run_bind, Ports.run_outb, hflush]
              cases hfails₂ : (d.answers 2).fails with
              | true =>
                  rw [set_set] at hdisk₃
                  exact ⟨_, d₃, rfl, hprompt₃, fun h => absurd (h.2 2) (by simp [hfails₂]),
                    Or.inl ⟨herr₃.trans hfails₂, ⟨_, rfl⟩, _, hdisk₃⟩⟩
              | false =>
                  simp only [hfails₁, hfails₂, if_false, Bool.false_eq_true, set_self] at hdisk₃
                  refine ⟨_, d₃, rfl, hprompt₃, fun h => ⟨herr₃.trans hfails₂, fun n => ?_⟩,
                    Or.inr ⟨trivial, rfl, fun l => ?_⟩⟩
                  · rw [hanswers₃]
                    exact h.2 (n + 3)
                  · rw [hdisk₃]
                    exact sameDisk_set (fun _ => rfl) _ (block_moved _ _) l

end Accesses

/-! ## Clients -/

/-- A program that reads and writes sectors.  It goes on by the bytes it has read and by whether
an access has failed. -/
inductive Client (α : Type) where
  | done (a : α)
  | read (site : Site) (lba : UInt32) (buffer : Sector)
      (next : Option (Fin 512 → UInt8) → Client α)
  | write (site : Site) (lba : UInt32) (buffer : Sector) (next : Bool → Client α)

namespace Client

variable {α : Type}

/-- The client over `ata_read_sector` and `ata_write_sector`. -/
def overDriver : Client α → Ports α
  | done a => pure a
  | read _ lba buffer next => do
      let r ← ataReadSector lba buffer
      (next (r.toOption.map block)).overDriver
  | write _ lba buffer next => do
      let r ← ataWriteSector lba buffer
      (next r.toOption.isSome).overDriver

/-- The client over the accesses of the FAT16 model.  A drive knows the low 28 bits of an LBA. -/
def overModel : Client α → Fs α
  | done a => pure a
  | read site lba _ next => do
      let b ← Fat16.ataReadSector site (lba.toNat % 2 ^ 28)
      (next (b.map block)).overModel
  | write site lba buffer next => do
      let ok ← Fat16.ataWriteSector site (lba.toNat % 2 ^ 28) buffer
      (next ok).overModel

/-- What the client returns when every access fails. -/
def refused : Client α → α
  | done a => a
  | read _ _ _ next => (next none).refused
  | write _ _ _ next => (next false).refused

end Client

/-- Once an access has failed, all later ones fail. -/
def Degrades (faults : Nat → Site → Option Sector) : Prop :=
  ∀ n site m site', (faults n site).isSome → n ≤ m → (faults m site').isSome

/-- The fault pattern of a first access and of those after it. -/
def firstFault (first : Option Sector) (faults : Nat → Site → Option Sector) :
    Nat → Site → Option Sector
  | 0 => fun _ => first
  | n + 1 => faults n

theorem degrades_firstFault {first : Option Sector} {faults : Nat → Site → Option Sector}
    (h : Degrades faults) (hfirst : first.isSome → ∀ n site, (faults n site).isSome) :
    Degrades (firstFault first faults) := by
  intro n site m site' hn hle
  cases n with
  | zero =>
      cases m with
      | zero => exact hn
      | succ m => exact hfirst hn m site'
  | succ n =>
      obtain ⟨m, rfl⟩ := Nat.exists_eq_add_one_of_ne_zero (Nat.ne_zero_of_lt hle)
      exact h n site m site' hn (Nat.le_of_succ_le_succ hle)

section Refinement

variable {α : Type} {d : Drive}

/-- What a client's run on the drive is matched with: a fault pattern of the model that is
everywhere set after an error and nowhere set on a healthy drive. -/
structure Matches (c : Client α) (d : Drive) (faults : Nat → Site → Option Sector) : Prop where
  degrades : Degrades faults
  failed : d.err = true → ∀ n site, (faults n site).isSome
  healthy : d.Healthy → faults = fun _ _ => none
  run : ∀ env disk failed, SameDisk disk d.disk → ∃ io',
    c.overModel env { disk := disk, faults := faults, failed := failed } =
        .ret ((c.overDriver.run channel d).1, io') ∧
      SameDisk io'.disk (c.overDriver.run channel d).2.disk

theorem matches_done (a : α) (d : Drive) : ∃ faults, Matches (.done a) d faults := by
  cases herr : d.err with
  | false =>
      exact ⟨fun _ _ => none, fun _ _ _ _ h => absurd h (by simp),
        fun h => absurd h (by simp [herr]), fun _ => rfl, fun _ _ _ hsame => ⟨_, rfl, hsame⟩⟩
  | true =>
      exact ⟨fun _ _ => some fun _ => 0, fun _ _ _ _ _ _ => rfl, fun _ _ _ => rfl,
        fun h => absurd h.1 (by simp [herr]), fun _ _ _ hsame => ⟨_, rfl, hsame⟩⟩

theorem matches_read {site : Site} {lba : UInt32} {buffer : Sector}
    {next : Option (Fin 512 → UInt8) → Client α} (hd : d.Prompt)
    (hnext : ∀ b d', d'.Prompt → ∃ faults, Matches (next b) d' faults) :
    ∃ faults, Matches (.read site lba buffer next) d faults := by
  obtain ⟨r, d', hrun, hprompt, hdisk, hhealthy, hends⟩ := run_read hd lba buffer
  have hdriver : (Client.read site lba buffer next).overDriver.run channel d =
      (next (r.toOption.map block)).overDriver.run channel d' := by
    rw [Client.overDriver, Ports.run_bind, hrun]
  obtain ⟨faults, hfaults⟩ := hnext (r.toOption.map block) d' hprompt
  obtain ⟨herr, text, rfl⟩ | ⟨herr, b, rfl, hb⟩ := hends
  · refine ⟨firstFault (some fun _ => 0) faults, degrades_firstFault hfaults.degrades
      fun _ => hfaults.failed herr, fun _ n site => ?_, fun h => ?_, fun env disk failed hsame => ?_⟩
    · cases n with
      | zero => rfl
      | succ n => exact hfaults.failed herr n site
    · exact absurd (hhealthy h).1 (by simp [herr])
    · rw [hdriver]
      exact hfaults.run env disk (failed ++ [site]) (hdisk ▸ hsame)
  · refine ⟨firstFault none faults, degrades_firstFault hfaults.degrades (by simp),
      fun h => absurd h (by simp [herr]), fun h => ?_, fun env disk failed hsame => ?_⟩
    · rw [hfaults.healthy (hhealthy h)]
      funext n
      cases n with
      | zero => rfl
      | succ n => rfl
    · have hread : block (disk (lba.toNat % 2 ^ 28)) = block b := (hsame _).trans hb.symm
      obtain ⟨io', hmodel, hsame'⟩ := hfaults.run env disk failed (hdisk ▸ hsame)
      rw [hdriver]
      refine ⟨io', Eq.trans ?_ hmodel, hsame'⟩
      exact congrArg (fun c => (next (some c)).overModel env ⟨disk, faults, failed, _⟩) hread

theorem matches_write {site : Site} {lba : UInt32} {buffer : Sector} {next : Bool → Client α}
    (hd : d.Prompt) (hnext : ∀ ok d', d'.Prompt → ∃ faults, Matches (next ok) d' faults) :
    ∃ faults, Matches (.write site lba buffer next) d faults := by
  obtain ⟨r, d', hrun, hprompt, hhealthy, hends⟩ := run_write hd lba buffer
  have hdriver : (Client.write site lba buffer next).overDriver.run channel d =
      (next r.toOption.isSome).overDriver.run channel d' := by
    rw [Client.overDriver, Ports.run_bind, hrun]
  obtain ⟨faults, hfaults⟩ := hnext r.toOption.isSome d' hprompt
  obtain ⟨herr, ⟨text, rfl⟩, left, hdisk⟩ | ⟨herr, rfl, hdisk⟩ := hends
  · refine ⟨firstFault (some left) faults, degrades_firstFault hfaults.degrades
      fun _ => hfaults.failed herr, fun _ n site => ?_, fun h => ?_, fun env disk failed hsame => ?_⟩
    · cases n with
      | zero => rfl
      | succ n => exact hfaults.failed herr n site
    · exact absurd (hhealthy h).1 (by simp [herr])
    · rw [hdriver]
      exact hfaults.run env _ (failed ++ [site]) (hdisk ▸ sameDisk_set hsame _ rfl)
  · refine ⟨firstFault none faults, degrades_firstFault hfaults.degrades (by simp),
      fun h => absurd h (by simp [herr]), fun h => ?_, fun env disk failed hsame => ?_⟩
    · rw [hfaults.healthy (hhealthy h)]
      funext n
      cases n with
      | zero => rfl
      | succ n => rfl
    · rw [hdriver]
      exact hfaults.run env _ failed fun l => (sameDisk_set hsame _ rfl l).trans (hdisk l).symm

/-- The two accesses of a client, one after the other. -/
theorem exists_matches (c : Client α) (hd : d.Prompt) : ∃ faults, Matches c d faults := by
  induction c generalizing d with
  | done a => exact matches_done a d
  | read site lba buffer next ih => exact matches_read hd fun b d' hd' => ih b hd'
  | write site lba buffer next ih => exact matches_write hd fun ok d' hd' => ih ok hd'

/-- **The driver refines the accesses of the FAT16 model.**  On a drive that answers every wait
in time, each client over `ata_read_sector` and `ata_write_sector` returns what it returns over
the model's accesses, and leaves the same bytes on the disk, under a fault pattern that never
recovers and has no faults when the drive is healthy. -/
theorem driver_refines (c : Client α) (env : Fat16.Env) (d : Drive) (hd : d.Prompt) :
    ∃ faults io', Degrades faults ∧ (d.Healthy → faults = fun _ _ => none) ∧
      c.overModel env (Fat16.faulty d.disk faults) =
        .ret ((c.overDriver.run channel d).1, io') ∧
      SameDisk io'.disk (c.overDriver.run channel d).2.disk := by
  obtain ⟨faults, hmatches⟩ := exists_matches c hd
  obtain ⟨io', hrun, hsame⟩ := hmatches.run env d.disk [] fun _ => rfl
  exact ⟨faults, io', hmatches.degrades, hmatches.healthy, hrun, hsame⟩

/-- A client that writes a sector and reads it back, on a healthy drive. -/
theorem driver_refines_sample :
    let c : Client (Option (Fin 512 → UInt8)) :=
      .write .data 5 (fun _ => 7) fun _ => .read .data 5 (fun _ => 0) .done
    let d : Drive := ⟨fun _ _ => 0, 0, 0, 0, 0, 0, 2, false, .none, fun _ => ⟨3, false, fun _ => 0⟩⟩
    let env : Fat16.Env := ⟨.small 2 2 2 2 (by decide), 0, fun _ => none⟩
    ∃ faults io', Degrades faults ∧ (d.Healthy → faults = fun _ _ => none) ∧
      c.overModel env (Fat16.faulty d.disk faults) =
        .ret ((c.overDriver.run channel d).1, io') ∧
      SameDisk io'.disk (c.overDriver.run channel d).2.disk :=
  driver_refines _ _ _ ⟨rfl, by decide, fun _ => show 3 < timeout by decide⟩

end Refinement

/-! ## Errors and late answers -/

section Errors

variable {d : Drive}

/-- A wait on a drive in error answers no and leaves the error and the disk. -/
theorem wait_of_err (herr : d.err = true) :
    (ataWaitReady.run channel d).1 = false ∧ (ataWaitReady.run channel d).2.err = true ∧
      (ataWaitReady.run channel d).2.disk = d.disk := by
  refine Ports.run_poll_false (fun e : Drive => e.err = true ∧ e.disk = d.disk) (fun _ h => h)
    (fun e h => ?_) timeout ⟨herr, rfl⟩
  have hstatus : e.status = 0x80 ∨ e.status = 0x41 := by
    by_cases hbusy : e.busy = 0
    · exact Or.inr (by simp [Drive.status, hbusy, h.1])
    · exact Or.inl (if_pos hbusy)
  obtain hstatus | hstatus := hstatus
  · exact ne_of_eq_of_ne (congrArg readyVerdict hstatus) (by decide)
  · exact ne_of_eq_of_ne (congrArg readyVerdict hstatus) (by decide)

/-- A read of a drive in error. -/
theorem read_of_err (herr : d.err = true) (lba : UInt32) (buffer : Sector) :
    (ataReadSector lba buffer).run channel d =
        (.error notReady, (ataWaitReady.run channel d).2) ∧
      (ataReadSector lba buffer).trace channel d = ataWaitReady.trace channel d := by
  rw [ataReadSector, Ports.run_bind, Ports.trace_bind, (wait_of_err herr).1]
  exact ⟨rfl, List.append_nil _⟩

/-- A write to a drive in error. -/
theorem write_of_err (herr : d.err = true) (lba : UInt32) (buffer : Sector) :
    (ataWriteSector lba buffer).run channel d =
        (.error notReady, (ataWaitReady.run channel d).2) ∧
      (ataWriteSector lba buffer).trace channel d = ataWaitReady.trace channel d := by
  rw [ataWriteSector, Ports.run_bind, Ports.trace_bind, (wait_of_err herr).1]
  exact ⟨rfl, List.append_nil _⟩

theorem mem_trace_ataWaitReady {a : Access} (h : a ∈ ataWaitReady.trace channel d) :
    a = .inb 0x1F7 := by
  obtain ⟨k, -, htrace⟩ := trace_ataWaitReady channel d
  rw [htrace] at h
  exact List.eq_of_mem_replicate h

/-- **An error is for ever.**  Once the drive shows ERR, every access of every client fails, no
port is written any more, and the disk stays as it is: the driver never sends the command that
would clear the error. -/
theorem error_latches {α : Type} (c : Client α) (d : Drive) (herr : d.err = true) :
    (c.overDriver.run channel d).1 = c.refused ∧
      (c.overDriver.run channel d).2.disk = d.disk ∧
      ∀ a ∈ c.overDriver.trace channel d, a = .inb 0x1F7 := by
  induction c generalizing d with
  | done a => exact ⟨rfl, rfl, fun _ h => absurd h List.not_mem_nil⟩
  | read site lba buffer next ih =>
      obtain ⟨hrun, htrace⟩ := read_of_err herr lba buffer
      obtain ⟨hvalue, hdisk, haccesses⟩ := ih none _ (wait_of_err herr).2.1
      rw [Client.overDriver, Ports.run_bind, Ports.trace_bind, hrun, htrace]
      refine ⟨hvalue, hdisk.trans (wait_of_err herr).2.2, fun a ha => ?_⟩
      exact (List.mem_append.1 ha).elim mem_trace_ataWaitReady (haccesses a)
  | write site lba buffer next ih =>
      obtain ⟨hrun, htrace⟩ := write_of_err herr lba buffer
      obtain ⟨hvalue, hdisk, haccesses⟩ := ih false _ (wait_of_err herr).2.1
      rw [Client.overDriver, Ports.run_bind, Ports.trace_bind, hrun, htrace]
      refine ⟨hvalue, hdisk.trans (wait_of_err herr).2.2, fun a ha => ?_⟩
      exact (List.mem_append.1 ha).elim mem_trace_ataWaitReady (haccesses a)

/-- A read, refused by a drive in error that is still busy. -/
theorem error_latches_read :
    let c : Client Bool := .read .data 5 (fun _ => 0) fun b => .done b.isSome
    let d : Drive := ⟨fun _ _ => 0, 0, 0, 0, 0, 0, 2, true, .none, fun _ => ⟨3, false, fun _ => 0⟩⟩
    (c.overDriver.run channel d).1 = c.refused ∧
      (c.overDriver.run channel d).2.disk = d.disk ∧
      ∀ a ∈ c.overDriver.trace channel d, a = .inb 0x1F7 :=
  error_latches _ _ rfl

/-- A wait that is too short for the drive. -/
theorem drq_times_out (hd : timeout ≤ d.busy) :
    ataWaitDrq.run channel d = (false, { d with busy := d.busy - timeout }) := by
  refine @Ports.run_poll_undecided _ channel 0x1F7 drqVerdict timeout
    (fun i => { d with busy := d.busy - i }) (fun _ _ => rfl) fun i hi => ?_
  have hne : d.busy - i ≠ 0 := Nat.sub_ne_zero_of_lt (Nat.lt_of_lt_of_le hi hd)
  have hstatus : ({ d with busy := d.busy - i } : Drive).status = 0x80 := if_pos hne
  exact congrArg drqVerdict hstatus

/-- A read of a drive that still offers the data of an earlier one. -/
theorem read_of_offer {n : Nat} (hd : d.busy < timeout) (herr : d.err = false)
    (hoffer : d.transfer = .input n 0) (lba : UInt32) (buffer : Sector) :
    ∃ b d', (ataReadSector lba buffer).run channel d = (.ok b, d') ∧
      block b = block (d.disk n) := by
  have htransfer : d.transfer ≠ .none := by simp [hoffer]
  have hrefused : (d.settled.addressed lba).command 0x20 = d.settled.addressed lba := by
    have haddressed : (d.settled.addressed lba).transfer = .input n 0 := hoffer
    rw [Drive.command, haddressed]
  have hready : (d.settled.addressed lba).settled.transfer = .input n 0 := hoffer
  rw [ataReadSector, Ports.run_bind, ready_of_transfer hd herr htransfer]
  simp only [if_true, Ports.run_bind, run_select, hrefused]
  rw [@drq_of_transfer (d.settled.addressed lba) timeout_pos herr htransfer]
  simp only [if_true, Ports.run_bind, Ports.run_pure, run_readWords hready]
  exact ⟨_, _, rfl, block_moved _ _⟩

/-- A read the drive answers too late fails, and leaves the drive about to offer the data. -/
theorem read_times_out (hnone : d.transfer = .none) (herr : d.err = false)
    (hbusy : d.busy < timeout) (hok : (d.answers 0).fails = false)
    (hlate : timeout ≤ (d.answers 0).busy) (lba : UInt32) (buffer : Sector) :
    ∃ text d', (ataReadSector lba buffer).run channel d = (.error text, d') ∧
      d'.busy = (d.answers 0).busy - timeout ∧ d'.err = false ∧
      d'.transfer = .input (lba.toNat % 2 ^ 28) 0 ∧ d'.disk = d.disk := by
  have hoffer : ((d.settled.addressed lba).accept (.input (lba.toNat % 2 ^ 28) 0)).transfer =
      .input _ 0 := if_neg (by simp [Drive.addressed, Drive.settled, hok])
  have herr' : ((d.settled.addressed lba).accept (.input (lba.toNat % 2 ^ 28) 0)).err = false := hok
  have hbusy' : ((d.settled.addressed lba).accept (.input (lba.toNat % 2 ^ 28) 0)).busy =
      (d.answers 0).busy := rfl
  have hdisk : ((d.settled.addressed lba).accept (.input (lba.toNat % 2 ^ 28) 0)).disk =
      d.disk := rfl
  rw [ataReadSector, Ports.run_bind, ready_of_ok hbusy herr hnone]
  simp only [if_true, Ports.run_bind, run_select, command_read hnone]
  generalize (d.settled.addressed lba).accept (.input (lba.toNat % 2 ^ 28) 0) = e at *
  rw [drq_times_out (hbusy' ▸ hlate)]
  exact ⟨_, _, rfl, hbusy' ▸ rfl, herr', hoffer, hdisk⟩

/-- **A late answer is taken for the next one.**  A read whose data comes after the driver has
given up fails; the next read, of whatever sector, then succeeds and returns the sector of the
first: the driver takes RDY for readiness although the drive still offers data, which makes it
refuse the second command. -/
theorem late_answer_is_stale (d : Drive) (hnone : d.transfer = .none) (herr : d.err = false)
    (hbusy : d.busy < timeout) (hok : (d.answers 0).fails = false)
    (hlate : timeout ≤ (d.answers 0).busy) (hcomes : (d.answers 0).busy < 2 * timeout)
    (lba lba' : UInt32) (buffer buffer' : Sector) :
    ∃ text d₁ b d₂, (ataReadSector lba buffer).run channel d = (.error text, d₁) ∧
      (ataReadSector lba' buffer').run channel d₁ = (.ok b, d₂) ∧
      block b = block (d.disk (lba.toNat % 2 ^ 28)) := by
  obtain ⟨text, d₁, hfirst, hbusy₁, herr₁, hoffer, hdisk⟩ :=
    read_times_out hnone herr hbusy hok hlate lba buffer
  have hleft : d₁.busy < timeout := by omega
  obtain ⟨b, d₂, hsecond, hb⟩ := read_of_offer hleft herr₁ hoffer lba' buffer'
  exact ⟨text, d₁, b, d₂, hfirst, hsecond, hdisk ▸ hb⟩

/-- Sector 1 comes too late, and its bytes are taken for those of sector 2. -/
theorem late_answer_is_stale_sample :
    let d : Drive := ⟨fun n _ => UInt8.ofNat n, 0, 0, 0, 0, 0, 0, false, .none,
      fun _ => ⟨timeout, false, fun _ => 0⟩⟩
    ∃ text d₁ b d₂, (ataReadSector 1 fun _ => 0).run channel d = (.error text, d₁) ∧
      (ataReadSector 2 fun _ => 0).run channel d₁ = (.ok b, d₂) ∧
      block b = block (d.disk (UInt32.toNat 1 % 2 ^ 28)) :=
  late_answer_is_stale _ rfl rfl timeout_pos rfl le_rfl (lt_two_mul_self timeout_pos) 1 2 _ _

end Errors

end Ata

end BenmoshOS
