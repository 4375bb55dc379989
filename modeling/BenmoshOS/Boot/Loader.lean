import BenmoshOS.Lib.Exec
import BenmoshOS.Lib.LittleEndian

/-!
# The boot loader: `bootloader/boot.asm`, stage 1

The boot sector loads the sectors behind it one by one with BIOS reads in CHS coordinates.  It
counts cylinder, head and sector in bytes of its own, behind its code, and moves `ES` by 32
paragraphs a sector.

* `DiskService` — `int 0x13`, which is firmware: what a read does with the carry flag and memory.
* `ReadsImage` — the service reads an image on a drive of 16 heads and 63 sectors a track, the
  geometry in the boot sector's parameter block.
* `At` — what the loop knows before round `i`: its coordinates are those of LBA `i + 1`.
* `readLoop_loads` — the loop reads the sectors 1, 2, … in order to `0x7E00` and up, until it has
  as many as it was assembled for or one cannot be read.
* `kernel_in_place` — with the number of sectors the Makefile computes, the kernel is at `0x8000`.
-/

namespace BenmoshOS

namespace Boot

open Exec LittleEndian

/-- Memory by physical address. -/
abbrev Memory := Nat → UInt8

/-- The sectors of the boot drive by LBA; `none` is a sector that cannot be read. -/
abbrev Image := Nat → Option (Nat → UInt8)

/-- The registers of `int 0x13` with `AH = 2` and `AL = 1`: read one sector to `ES:0`. -/
structure ReadRequest where
  drive : UInt8
  cylinder : UInt8
  head : UInt8
  sector : UInt8
  es : UInt16

/-- The disk service of the BIOS: the carry flag and memory after a read. -/
abbrev DiskService := ReadRequest → Memory → Bool × Memory

/-- `ES` and memory, with the variables of the loop in it. -/
structure Loader where
  es : UInt16
  mem : Memory

/-- How the loop ends: with a jump to stage 2, or in `disk_error`. -/
inductive Loaded where
  | done (mem : Memory)
  | diskError (mem : Memory)

section Code

/- The address of `boot_drive`; `current_cylinder`, `current_head`, `current_sector` and the word
`sectors_left` are the five bytes behind it. -/
variable (vars : Nat)

/-- What `.read_loop` puts into the registers. -/
def Loader.request (s : Loader) : ReadRequest :=
  ⟨s.mem vars, s.mem (vars + 1), s.mem (vars + 2), s.mem (vars + 3), s.es⟩

@[simp] theorem Loader.request_es (s : Loader) : (s.request vars).es = s.es := rfl

/-- The coordinates of the next sector.  The comparisons are signed (`jl`). -/
def advance (mem : Memory) : Memory :=
  let mem := Function.update mem (vars + 3) (mem (vars + 3) + 1)
  if (mem (vars + 3)).toInt8 < 64 then mem
  else
    let mem := Function.update mem (vars + 3) 1
    let mem := Function.update mem (vars + 2) (mem (vars + 2) + 1)
    if (mem (vars + 2)).toInt8 < 16 then mem
    else
      let mem := Function.update mem (vars + 2) 0
      Function.update mem (vars + 1) (mem (vars + 1) + 1)

/-- One round of `.read_loop`. -/
def round (bios : DiskService) (s : Loader) : Exec (Loader ⊕ Loaded) :=
  let (carry, mem) := bios (s.request vars) s.mem
  if carry then .ret (.inr (.diskError mem))
  else
    let es := s.es + 0x20
    let sectorsLeft := UInt16.ofNat (load mem (vars + 4) 2) - 1
    let mem := store mem (vars + 4) sectorsLeft.toNat 2
    if sectorsLeft = 0 then .ret (.inr (.done mem))
    else .ret (.inl ⟨es, advance vars mem⟩)

/-- The variables before the first round, with the drive that the BIOS passes in `DL`. -/
def setUp (dl : UInt8) (sectorsToLoad : UInt16) (mem : Memory) : Memory :=
  let mem := Function.update mem vars dl
  let mem := Function.update mem (vars + 1) 0
  let mem := Function.update mem (vars + 2) 0
  let mem := Function.update mem (vars + 3) 2
  store mem (vars + 4) sectorsToLoad.toNat 2

/-- `BootloaderMain` without its greeting. -/
def readLoop (bios : DiskService) (dl : UInt8) (sectorsToLoad : UInt16) (mem : Memory)
    (fuel : Nat) : Exec Loaded :=
  Exec.loop (round vars bios) fuel ⟨0x07E0, setUp vars dl sectorsToLoad mem⟩

end Code

/-! ## The firmware -/

/-- The 512 bytes of a sector at `ES:0`. -/
def transfer (mem : Memory) (es : UInt16) (data : Nat → UInt8) : Memory := fun a =>
  if 16 * es.toNat ≤ a ∧ a < 16 * es.toNat + 512 then data (a - 16 * es.toNat) else mem a

/-- The sector that a request names on a drive of 16 heads and 63 sectors a track. -/
def ReadRequest.lba (q : ReadRequest) : Nat :=
  (q.cylinder.toNat * 16 + q.head.toNat) * 63 + (q.sector.toNat - 1)

/-- A request within that geometry, with a buffer behind the boot sector and below `top`. -/
structure ReadRequest.Valid (q : ReadRequest) (top : Nat) : Prop where
  head : q.head.toNat < 16
  sector_pos : 1 ≤ q.sector.toNat
  sector_le : q.sector.toNat ≤ 63
  buffer : 0x7E00 ≤ 16 * q.es.toNat
  buffer_le : 16 * q.es.toNat + 512 ≤ top

/-- **What the loop relies on**: the service reads the sectors of an image, and sets the carry
flag for one that cannot be read.  Of the memory from the boot sector to the end of conventional
memory it writes the buffer alone; its stack and its own data lie below, or above `top`. -/
structure ReadsImage (bios : DiskService) (drive : UInt8) (top : Nat) (disk : Image) : Prop where
  top_le : top ≤ 0xA0000
  readable : ∀ (q : ReadRequest) (mem : Memory) (data : Nat → UInt8), q.drive = drive →
    q.Valid top → disk q.lba = some data → (bios q mem).1 = false ∧
      ∀ a, 0x7C00 ≤ a → a < top → (bios q mem).2 a = transfer mem q.es data a
  unreadable : ∀ (q : ReadRequest) (mem : Memory), q.drive = drive → q.Valid top →
    disk q.lba = none → (bios q mem).1 = true ∧
      ∀ a, 0x7C00 ≤ a → a < top → a < 16 * q.es.toNat ∨ 16 * q.es.toNat + 512 ≤ a →
        (bios q mem).2 a = mem a

/-! ## Coordinates -/

theorem toInt8_lt_64 {x : UInt8} (h : x.toNat ≤ 64) : x.toInt8 < 64 ↔ x.toNat < 64 := by
  have hall : ∀ n ≤ 64, (UInt8.ofNat n).toInt8 < 64 ↔ n < 64 := by decide
  simpa using hall x.toNat h

theorem toInt8_lt_16 {x : UInt8} (h : x.toNat ≤ 16) : x.toInt8 < 16 ↔ x.toNat < 16 := by
  have hall : ∀ n ≤ 16, (UInt8.ofNat n).toInt8 < 16 ↔ n < 16 := by decide
  simpa using hall x.toNat h

variable {bios : DiskService} {drive : UInt8} {top : Nat} {disk : Image} {vars : Nat}

section Coordinates

/-- The coordinates in memory are those of a sector. -/
structure Names (vars : Nat) (mem : Memory) (lba : Nat) : Prop where
  head : (mem (vars + 2)).toNat < 16
  sector_pos : 1 ≤ (mem (vars + 3)).toNat
  sector_le : (mem (vars + 3)).toNat ≤ 63
  lba : ((mem (vars + 1)).toNat * 16 + (mem (vars + 2)).toNat) * 63 +
    ((mem (vars + 3)).toNat - 1) = lba

variable {mem mem' : Memory} {lba : Nat}

theorem Names.of_toNat {c h n : Nat} (hc : (mem (vars + 1)).toNat = c)
    (hh : (mem (vars + 2)).toNat = h) (hs : (mem (vars + 3)).toNat = n) (hhead : h < 16)
    (hpos : 1 ≤ n) (hle : n ≤ 63) (hlba : (c * 16 + h) * 63 + (n - 1) = lba) :
    Names vars mem lba := by
  subst hc hh hs
  exact ⟨hhead, hpos, hle, hlba⟩

theorem Names.congr (h : Names vars mem lba)
    (heq : ∀ i, 1 ≤ i → i ≤ 3 → mem' (vars + i) = mem (vars + i)) : Names vars mem' lba :=
  Names.of_toNat (congrArg UInt8.toNat (heq 1 (by decide) (by decide)))
    (congrArg UInt8.toNat (heq 2 (by decide) (by decide)))
    (congrArg UInt8.toNat (heq 3 (by decide) (by decide))) h.head h.sector_pos h.sector_le h.lba

/-- The coordinates are all that changes. -/
theorem advance_frame {a : Nat} (h : a ≤ vars ∨ vars + 4 ≤ a) : advance vars mem a = mem a := by
  have h₁ : a ≠ vars + 1 := by omega
  have h₂ : a ≠ vars + 2 := by omega
  have h₃ : a ≠ vars + 3 := by omega
  simp only [advance]
  split_ifs <;> simp only [Function.update_of_ne h₁, Function.update_of_ne h₂,
    Function.update_of_ne h₃]

/-- **One step of the coordinates** is one step of the LBA, also at the end of a track and of a
cylinder. -/
theorem Names.advance (h : Names vars mem lba) (hlba : lba < 255 * 1008) :
    Names vars (advance vars mem) (lba + 1) := by
  obtain ⟨hhead, hpos, hle, hlba'⟩ := h
  have hsector : (mem (vars + 3) + 1).toNat = (mem (vars + 3)).toNat + 1 := by
    rw [UInt8.toNat_add, UInt8.toNat_one]
    omega
  have hhead' : (mem (vars + 2) + 1).toNat = (mem (vars + 2)).toNat + 1 := by
    rw [UInt8.toNat_add, UInt8.toNat_one]
    omega
  have hcylinder : (mem (vars + 1) + 1).toNat = (mem (vars + 1)).toNat + 1 := by
    rw [UInt8.toNat_add, UInt8.toNat_one]
    omega
  have h₁₂ : vars + 1 ≠ vars + 2 := by omega
  have h₁₃ : vars + 1 ≠ vars + 3 := by omega
  have h₂₃ : vars + 2 ≠ vars + 3 := by omega
  have hround : Boot.advance vars mem =
      if (mem (vars + 3) + 1).toInt8 < 64 then Function.update mem (vars + 3) (mem (vars + 3) + 1)
      else if (mem (vars + 2) + 1).toInt8 < 16 then
        Function.update (Function.update mem (vars + 3) 1) (vars + 2) (mem (vars + 2) + 1)
      else Function.update (Function.update (Function.update mem (vars + 3) 1) (vars + 2) 0)
        (vars + 1) (mem (vars + 1) + 1) := by
    simp only [Boot.advance, Function.update_self, Function.update_idem,
      Function.update_of_ne h₁₂, Function.update_of_ne h₁₃, Function.update_of_ne h₂₃]
  rw [hround]
  by_cases htrack : (mem (vars + 3)).toNat + 1 < 64
  · rw [if_pos ((toInt8_lt_64 (by omega)).2 (by omega))]
    refine @Names.of_toNat _ _ _ (mem (vars + 1)).toNat (mem (vars + 2)).toNat
      ((mem (vars + 3)).toNat + 1) ?_ ?_ ?_ hhead (by omega) (by omega) (by omega)
    · rw [Function.update_of_ne h₁₃]
    · rw [Function.update_of_ne h₂₃]
    · rw [Function.update_self, hsector]
  · have hturn : ¬ (mem (vars + 3) + 1).toInt8 < 64 := by
      rw [toInt8_lt_64 (by omega)]
      omega
    rw [if_neg hturn]
    by_cases hheads : (mem (vars + 2)).toNat + 1 < 16
    · rw [if_pos ((toInt8_lt_16 (by omega)).2 (by omega))]
      refine @Names.of_toNat _ _ _ (mem (vars + 1)).toNat ((mem (vars + 2)).toNat + 1) 1 ?_ ?_ ?_
        hheads le_rfl (by decide) (by omega)
      · rw [Function.update_of_ne h₁₂, Function.update_of_ne h₁₃]
      · rw [Function.update_self, hhead']
      · rw [Function.update_of_ne h₂₃.symm, Function.update_self, UInt8.toNat_one]
    · have hlast : ¬ (mem (vars + 2) + 1).toInt8 < 16 := by
        rw [toInt8_lt_16 (by omega)]
        omega
      rw [if_neg hlast]
      refine @Names.of_toNat _ _ _ ((mem (vars + 1)).toNat + 1) 0 1 ?_ ?_ ?_ (by decide) le_rfl
        (by decide) (by omega)
      · rw [Function.update_self, hcylinder]
      · rw [Function.update_of_ne h₁₂.symm, Function.update_self, UInt8.toNat_zero]
      · rw [Function.update_of_ne h₁₃.symm, Function.update_of_ne h₂₃.symm, Function.update_self,
          UInt8.toNat_one]

end Coordinates

/-! ## The loop -/

/-- Memory with the sectors 1 to `n` of the disk from `0x7E00` on. -/
def withSectors (disk : Image) (mem : Memory) (n : Nat) : Memory := fun a =>
  if 0x7E00 ≤ a ∧ a < 0x7E00 + 512 * n then
    ((disk ((a - 0x7E00) / 512 + 1)).getD fun _ => 0) ((a - 0x7E00) % 512)
  else mem a

/-- A byte is as the loop leaves it with `n` sectors read.  Nothing is said of its own variables,
nor of what belongs to the firmware, below the boot sector and from `top` on. -/
def AsLoaded (vars top : Nat) (disk : Image) (mem : Memory) (n : Nat) (mem' : Memory)
    (a : Nat) : Prop :=
  0x7C00 ≤ a → a < top → a < vars ∨ vars + 6 ≤ a → mem' a = withSectors disk mem n a

/-- What the loop knows when it has loaded `n` of `total` sectors. -/
structure At (vars : Nat) (drive : UInt8) (top : Nat) (disk : Image) (mem : Memory)
    (total n : Nat) (s : Loader) : Prop where
  drive_eq : s.mem vars = drive
  names : Names vars s.mem (n + 1)
  es : s.es.toNat = 0x7E0 + 0x20 * n
  sectorsLeft : load s.mem (vars + 4) 2 = total - n
  loaded : ∀ a, AsLoaded vars top disk mem n s.mem a

variable {mem : Memory} {total n : Nat} {s : Loader}

theorem transfer_withSectors {es : UInt16} {data : Nat → UInt8} {mem' : Memory}
    (hes : es.toNat = 0x7E0 + 0x20 * n) (hdata : disk (n + 1) = some data) {a : Nat}
    (hmem : mem' a = withSectors disk mem n a) :
    transfer mem' es data a = withSectors disk mem (n + 1) a := by
  have hbase : 16 * es.toNat = 0x7E00 + 512 * n := by omega
  unfold transfer
  rw [hmem]
  unfold withSectors
  rw [hbase]
  by_cases hnew : 0x7E00 + 512 * n ≤ a ∧ a < 0x7E00 + 512 * n + 512
  · have hquot : (a - 0x7E00) / 512 = n := by omega
    rw [if_pos hnew, if_pos (by omega), hquot, hdata, Option.getD_some]
    exact congrArg data (by omega)
  · by_cases hold : 0x7E00 ≤ a ∧ a < 0x7E00 + 512 * n
    · rw [if_neg hnew, if_pos hold, if_pos (by omega)]
    · rw [if_neg hnew, if_neg hold, if_neg (by omega)]

/-- The request of a round is one for the next sector, to the place behind the last one. -/
theorem At.valid (h : At vars drive top disk mem total n s)
    (hroom : 512 * (n + 1) + 0x7E00 ≤ top) :
    (s.request vars).Valid top ∧ (s.request vars).lba = n + 1 := by
  have hbuffer : 16 * (s.request vars).es.toNat = 512 * n + 0x7E00 := by
    rw [Loader.request_es, h.es]
    ring
  exact ⟨⟨h.names.head, h.names.sector_pos, h.names.sector_le, by omega, by omega⟩, h.names.lba⟩

/-- The read of a round leaves the variables alone: they lie below the buffer. -/
theorem At.read (hbios : ReadsImage bios drive top disk) (hvars : 0x7C00 ≤ vars)
    (hvars' : vars + 6 ≤ 0x7DBE) {data : Nat → UInt8} (h : At vars drive top disk mem total n s)
    (hroom : 512 * (n + 1) + 0x7E00 ≤ top) (hdata : disk (n + 1) = some data) :
    ∃ mem', bios (s.request vars) s.mem = (false, mem') ∧
      (∀ i < 6, mem' (vars + i) = s.mem (vars + i)) ∧
      ∀ a, AsLoaded vars top disk mem (n + 1) mem' a := by
  obtain ⟨hvalid, hlba⟩ := h.valid hroom
  have hes : (s.request vars).es.toNat = 0x7E0 + 0x20 * n := h.es
  obtain ⟨hcarry, hread⟩ := hbios.readable (s.request vars) s.mem data h.drive_eq hvalid
    (by rw [hlba, hdata])
  refine ⟨(bios (s.request vars) s.mem).2, Prod.ext hcarry rfl, fun i hi => ?_,
    fun a hlow hhigh hother => ?_⟩
  · rw [hread (vars + i) (by omega) (by omega)]
    exact if_neg (by omega)
  · rw [hread a hlow hhigh]
    exact transfer_withSectors h.es hdata (h.loaded a hlow hhigh hother)

theorem toNat_dec {n total : Nat} (hn : n < total) (htotal : total < 2 ^ 16) :
    (UInt16.ofNat (total - n) - 1).toNat = total - (n + 1) := by
  have hof : (UInt16.ofNat (total - n)).toNat = total - n := by
    rw [UInt16.toNat_ofNat']
    exact Nat.mod_eq_of_lt (by omega)
  have hpos : (1 : UInt16) ≤ UInt16.ofNat (total - n) := by
    rw [UInt16.le_iff_toNat_le, hof, UInt16.toNat_one]
    omega
  rw [UInt16.toNat_sub_of_le _ _ hpos, hof, UInt16.toNat_one]
  omega

/-- One round with a sector that can be read. -/
theorem round_at (hbios : ReadsImage bios drive top disk) (hvars : 0x7C00 ≤ vars)
    (hvars' : vars + 6 ≤ 0x7DBE) {data : Nat → UInt8} (h : At vars drive top disk mem total n s)
    (hn : n < total) (hroom : 512 * total + 0x7E00 ≤ top) (hdata : disk (n + 1) = some data) :
    (total = n + 1 ∧ ∃ mem', round vars bios s = .ret (.inr (.done mem')) ∧
        ∀ a, AsLoaded vars top disk mem total mem' a) ∨
      (n + 1 < total ∧ ∃ s', round vars bios s = .ret (.inl s') ∧
        At vars drive top disk mem total (n + 1) s') := by
  obtain ⟨mem', hread, hkept, hloaded⟩ := h.read hbios hvars hvars' (by omega) hdata
  have htop := hbios.top_le
  have hdec := toNat_dec hn (by omega)
  have hleft : load mem' (vars + 4) 2 = total - n := by
    rw [← h.sectorsLeft]
    exact load_congr fun i hi => by
      rw [Nat.add_assoc]
      exact hkept (4 + i) (by omega)
  have hround : round vars bios s = if UInt16.ofNat (total - n) - 1 = 0
      then .ret (.inr (.done (store mem' (vars + 4) (total - (n + 1)) 2)))
      else .ret (.inl ⟨s.es + 0x20, advance vars (store mem' (vars + 4) (total - (n + 1)) 2)⟩) := by
    simp only [round, hread, hleft, hdec, Bool.false_eq_true, if_false]
  have hloaded' : ∀ a, AsLoaded vars top disk mem (n + 1)
      (store mem' (vars + 4) (total - (n + 1)) 2) a := by
    intro a hlow hhigh hother
    rw [store_of_outside (by omega)]
    exact hloaded a hlow hhigh hother
  rw [hround]
  by_cases hlast : total = n + 1
  · have hzero : UInt16.ofNat (total - n) - 1 = 0 := by
      rw [← UInt16.toNat_inj, hdec, UInt16.toNat_zero]
      omega
    refine Or.inl ⟨hlast, _, if_pos hzero, ?_⟩
    nth_rewrite 1 [hlast]
    exact hloaded'
  · have hmore : UInt16.ofNat (total - n) - 1 ≠ 0 := by
      rw [Ne, ← UInt16.toNat_inj, hdec, UInt16.toNat_zero]
      omega
    refine Or.inr ⟨by omega, _, if_neg hmore, ?_, ?_, ?_, ?_, ?_⟩
    · exact (advance_frame (Or.inl le_rfl)).trans ((store_of_outside (Or.inl (by omega))).trans
        ((hkept 0 (by decide)).trans h.drive_eq))
    · refine Names.advance (h.names.congr fun i hi hi' => ?_) (by omega)
      rw [store_of_outside (Or.inl (by omega)), hkept i (by omega)]
    · have hes := h.es
      rw [UInt16.toNat_add, hes]
      simp only [UInt16.reduceToNat]
      omega
    · rw [load_congr fun i _ => advance_frame (Or.inr (by omega)), load_store]
      exact Nat.mod_eq_of_lt (by omega)
    · exact fun a hlow hhigh hother => (advance_frame (by omega)).trans
        (hloaded' a hlow hhigh hother)

/-- One round with a sector that cannot be read. -/
theorem round_unreadable (hbios : ReadsImage bios drive top disk)
    (h : At vars drive top disk mem total n s) (hroom : 512 * (n + 1) + 0x7E00 ≤ top)
    (hdata : disk (n + 1) = none) :
    ∃ mem', round vars bios s = .ret (.inr (.diskError mem')) ∧
      ∀ a, a < 0x7E00 + 512 * n ∨ 0x7E00 + 512 * (n + 1) ≤ a → AsLoaded vars top disk mem n mem' a := by
  obtain ⟨hvalid, hlba⟩ := h.valid hroom
  have hes := h.es
  obtain ⟨hcarry, hread⟩ := hbios.unreadable (s.request vars) s.mem h.drive_eq hvalid
    (by rw [hlba, hdata])
  refine ⟨(bios (s.request vars) s.mem).2, by simp only [round, hcarry, if_true],
    fun a hbuffer hlow hhigh hother => ?_⟩
  rw [hread a hlow hhigh (by rw [Loader.request_es]; omega)]
  exact h.loaded a hlow hhigh hother

/-- **What the loop loads.**  It reads the sectors 1, 2, … one after the other to `0x7E00` and up,
as many as it was assembled for, and jumps to stage 2; or it stops at the first sector that cannot
be read, with the ones before it in place. -/
theorem loop_loads (hbios : ReadsImage bios drive top disk) (hvars : 0x7C00 ≤ vars)
    (hvars' : vars + 6 ≤ 0x7DBE) (hroom : 512 * total + 0x7E00 ≤ top) {fuel : Nat}
    (h : At vars drive top disk mem total n s) (hn : n < total) (hfuel : total - n ≤ fuel) :
    ∃ k mem', n ≤ k ∧ (∀ i, n ≤ i → i < k → (disk (i + 1)).isSome) ∧
      ((k = total ∧ Exec.loop (round vars bios) fuel s = .ret (.done mem') ∧
          ∀ a, AsLoaded vars top disk mem k mem' a) ∨
        (k < total ∧ disk (k + 1) = none ∧
          Exec.loop (round vars bios) fuel s = .ret (.diskError mem') ∧
          ∀ a, a < 0x7E00 + 512 * k ∨ 0x7E00 + 512 * (k + 1) ≤ a →
            AsLoaded vars top disk mem k mem' a)) := by
  induction fuel generalizing n s with
  | zero => omega
  | succ fuel ih =>
      cases hdata : disk (n + 1) with
      | none =>
          obtain ⟨mem', hround, hloaded⟩ := round_unreadable hbios h (by omega) hdata
          exact ⟨n, mem', le_rfl, fun i hi hi' => absurd hi (Nat.not_le_of_lt hi'),
            Or.inr ⟨hn, hdata, Exec.loop_leave hround, hloaded⟩⟩
      | some data =>
          obtain ⟨rfl, mem', hround, hloaded⟩ | ⟨hmore, s', hround, hs'⟩ :=
            round_at hbios hvars hvars' h hn hroom hdata
          · refine ⟨n + 1, mem', hn.le, fun i hi hi' => ?_,
              Or.inl ⟨rfl, Exec.loop_leave hround, hloaded⟩⟩
            obtain rfl : i = n := by omega
            rw [hdata]
            rfl
          · obtain ⟨k, mem', hk, hread, hend⟩ := ih hs' hmore (by omega)
            rw [Exec.loop_again hround]
            refine ⟨k, mem', by omega, fun i hi hi' => ?_, hend⟩
            obtain rfl | hlt := Nat.eq_or_lt_of_le hi
            · rw [hdata]
              rfl
            · exact hread i hlt hi'

theorem setUp_apply (dl : UInt8) (sectorsToLoad : UInt16) (mem : Memory) {i : Nat} (hi : i < 4) :
    setUp vars dl sectorsToLoad mem (vars + i) = [dl, 0, 0, 2].getD i 0 := by
  rw [setUp, store_of_outside (Or.inl (by omega))]
  interval_cases i <;> simp

theorem setUp_frame (dl : UInt8) (sectorsToLoad : UInt16) (mem : Memory) {a : Nat}
    (ha : a < vars ∨ vars + 6 ≤ a) : setUp vars dl sectorsToLoad mem a = mem a := by
  rw [setUp, store_of_outside (by omega), Function.update_of_ne (by omega),
    Function.update_of_ne (by omega), Function.update_of_ne (by omega),
    Function.update_of_ne (by omega)]

theorem at_start (drive : UInt8) (top : Nat) (disk : Image) (mem : Memory)
    {sectorsToLoad : UInt16} : At vars drive top disk mem sectorsToLoad.toNat 0
      ⟨0x07E0, setUp vars drive sectorsToLoad mem⟩ := by
  have hbyte := @setUp_apply vars drive sectorsToLoad mem
  refine ⟨hbyte (by decide : 0 < 4), ?_, rfl, ?_, fun a _ _ hother => ?_⟩
  · exact @Names.of_toNat _ _ _ 0 0 2 (congrArg UInt8.toNat (hbyte (by decide : 1 < 4)))
      (congrArg UInt8.toNat (hbyte (by decide : 2 < 4)))
      (congrArg UInt8.toNat (hbyte (by decide : 3 < 4))) (by decide) (by decide) (by decide) rfl
  · exact (load_store _ _ _ _).trans (Nat.mod_eq_of_lt sectorsToLoad.toNat_lt)
  · exact (setUp_frame drive sectorsToLoad mem hother).trans (if_neg (by omega)).symm

/-- **What the boot sector loads.**  It reads the sectors 1, 2, … one after the other to `0x7E00`
and up, as many as it was assembled for, and jumps to stage 2; or it stops at the first sector
that cannot be read, with the ones before it in place. -/
theorem readLoop_loads (hbios : ReadsImage bios drive top disk) (hvars : 0x7C00 ≤ vars)
    (hvars' : vars + 6 ≤ 0x7DBE) (mem : Memory) {sectorsToLoad : UInt16} {fuel : Nat}
    (hpos : 1 ≤ sectorsToLoad.toNat) (hroom : 512 * sectorsToLoad.toNat + 0x7E00 ≤ top)
    (hfuel : sectorsToLoad.toNat ≤ fuel) :
    ∃ k mem', (∀ i < k, (disk (i + 1)).isSome) ∧
      ((k = sectorsToLoad.toNat ∧
          readLoop vars bios drive sectorsToLoad mem fuel = .ret (.done mem') ∧
          ∀ a, AsLoaded vars top disk mem k mem' a) ∨
        (k < sectorsToLoad.toNat ∧ disk (k + 1) = none ∧
          readLoop vars bios drive sectorsToLoad mem fuel = .ret (.diskError mem') ∧
          ∀ a, a < 0x7E00 + 512 * k ∨ 0x7E00 + 512 * (k + 1) ≤ a →
            AsLoaded vars top disk mem k mem' a)) := by
  obtain ⟨k, mem', -, hread, hend⟩ :=
    loop_loads hbios hvars hvars' hroom (at_start drive top disk mem) hpos hfuel
  exact ⟨k, mem', fun i => hread i (Nat.zero_le i), hend⟩

/-- A service that reads an image and leaves all other memory alone. -/
def plainService (disk : Image) : DiskService := fun q mem =>
  if q.drive = 0x80 ∧ q.head.toNat < 16 ∧ 1 ≤ q.sector.toNat ∧ q.sector.toNat ≤ 63 then
    match disk q.lba with
    | some data => (false, transfer mem q.es data)
    | none => (true, mem)
  else (true, mem)

theorem plainService_readsImage (disk : Image) :
    ReadsImage (plainService disk) 0x80 0x9FC00 disk := by
  refine ⟨by decide, fun q mem data hdrive hvalid hdata => ?_, fun q mem hdrive hvalid hdata => ?_⟩
  · rw [plainService, if_pos ⟨hdrive, hvalid.head, hvalid.sector_pos, hvalid.sector_le⟩, hdata]
    exact ⟨rfl, fun _ _ _ => rfl⟩
  · rw [plainService, if_pos ⟨hdrive, hvalid.head, hvalid.sector_pos, hvalid.sector_le⟩, hdata]
    exact ⟨rfl, fun _ _ _ _ => rfl⟩

/-- 1100 sectors of a disk whose LBA 1050 cannot be read: the loop goes through all heads of
cylinder 0 and stops in cylinder 1, with the last byte before the bad sector in place. -/
theorem readLoop_loads_sample :
    let disk : Image := fun lba => if lba = 1050 then none else some fun k => UInt8.ofNat (lba + k)
    ∃ mem', readLoop 0x7DB8 (plainService disk) 0x80 1100 (fun _ => 0) 1100 =
        .ret (.diskError mem') ∧ mem' (0x7E00 + 512 * 1049 - 1) = UInt8.ofNat (1049 + 511) := by
  intro disk
  obtain ⟨k, mem', hread, ⟨rfl, -⟩ | ⟨hlt, hnone, hrun, hloaded⟩⟩ := @readLoop_loads
    (plainService disk) 0x80 0x9FC00 disk 0x7DB8 (plainService_readsImage disk) (by decide)
    (by decide) (fun _ => 0) 1100 1100 (by decide) (by decide) (by decide)
  · exact absurd (hread 1049 (by decide)) (by simp [disk])
  · have hk : k + 1 = 1050 := by
      by_contra hne
      simp [disk, hne] at hnone
    obtain rfl : k = 1049 := by omega
    refine ⟨mem', hrun, (hloaded _ (by decide) (by decide) (by decide) (by decide)).trans ?_⟩
    rw [withSectors, if_pos (by decide)]
    rfl

/-- `SECTORS` of the Makefile: stage 2, and the sectors of a kernel of `size` bytes. -/
def sectors (size : Nat) : Nat := (size + 511) / 512 + 1

/-- **The kernel is in place.**  With the number of sectors the Makefile computes, stage 2 is at
`0x7E00` and every byte of the kernel at `0x8000`, and of the boot sector only the variables of
the loop have changed. -/
theorem kernel_in_place {size fuel : Nat} (hbios : ReadsImage bios drive top disk)
    (hvars : 0x7C00 ≤ vars) (hvars' : vars + 6 ≤ 0x7DBE) (mem : Memory)
    (hroom : 512 * sectors size + 0x7E00 ≤ top)
    (hdisk : ∀ lba, 1 ≤ lba → lba ≤ sectors size → (disk lba).isSome) (hfuel : sectors size ≤ fuel) :
    ∃ mem', readLoop vars bios drive (UInt16.ofNat (sectors size)) mem fuel = .ret (.done mem') ∧
      (∀ k < 512, some (mem' (0x7E00 + k)) = (disk 1).map fun data => data k) ∧
      (∀ k < size, some (mem' (0x8000 + k)) =
        (disk (2 + k / 512)).map fun data => data (k % 512)) ∧
      ∀ a, 0x7C00 ≤ a → a < 0x7E00 → a < vars ∨ vars + 6 ≤ a → mem' a = mem a := by
  have htop := hbios.top_le
  have hcount : (UInt16.ofNat (sectors size)).toNat = sectors size := by
    rw [UInt16.toNat_ofNat', Nat.mod_eq_of_lt (by omega)]
  have hpos : 1 ≤ sectors size := Nat.le_add_left 1 _
  obtain ⟨k, mem', -, -, ⟨hk, hrun, hloaded⟩ | ⟨hlt, hnone, -⟩⟩ := @loop_loads bios drive top disk
    vars mem (UInt16.ofNat (sectors size)).toNat 0 _ hbios hvars hvars' (by omega) fuel
    (at_start drive top disk mem) (by omega) (by omega)
  · rw [hk, hcount] at hloaded
    have hsector : ∀ i < 512 * sectors size, some (mem' (0x7E00 + i)) =
        (disk (i / 512 + 1)).map fun data => data (i % 512) := by
      intro i hi
      obtain ⟨data, hdata⟩ := Option.isSome_iff_exists.1 (hdisk (i / 512 + 1)
        (Nat.le_add_left 1 _) (by omega))
      rw [hloaded _ (by omega) (by omega) (by omega), withSectors, if_pos (by omega),
        Nat.add_sub_cancel_left, hdata]
      rfl
    have hfits : size + 512 ≤ 512 * sectors size := by
      unfold sectors
      omega
    refine ⟨mem', hrun, fun i hi => ?_, fun i hi => ?_, fun a hlow hhigh hother => ?_⟩
    · rw [hsector i (by omega), Nat.div_eq_of_lt hi, Nat.mod_eq_of_lt hi]
    · rw [show 0x8000 + i = 0x7E00 + (i + 512) by omega, hsector (i + 512) (by omega),
        Nat.add_div_right i (by decide), Nat.add_mod_right,
        show i / 512 + 1 + 1 = 2 + i / 512 by omega]
    · exact (hloaded a hlow (by omega) hother).trans (if_neg (by omega))
  · have hsome := hdisk (k + 1) (Nat.le_add_left 1 k) (by omega)
    rw [hnone] at hsome
    exact absurd hsome (by simp)

/-- A kernel of 600000 bytes: its last byte comes from a sector of cylinder 1. -/
theorem kernel_in_place_sample :
    let disk : Image := fun lba => some fun k => UInt8.ofNat (lba + k)
    ∃ mem', readLoop 0x7DB8 (plainService disk) 0x80 (UInt16.ofNat (sectors 600000))
        (fun _ => 0) 1200 = .ret (.done mem') ∧ mem' (0x7E00 + 5) = UInt8.ofNat (1 + 5) ∧
      mem' (0x8000 + 599999) = UInt8.ofNat (1173 + 447) ∧ mem' 0x7DB7 = 0 := by
  intro disk
  obtain ⟨mem', hrun, hstage, hkernel, hbelow⟩ := @kernel_in_place (plainService disk) 0x80 0x9FC00
    disk 0x7DB8 600000 1200 (plainService_readsImage disk) (by decide) (by decide) (fun _ => 0)
    (by decide) (fun _ _ _ => rfl) (by decide)
  exact ⟨mem', hrun, Option.some.inj (hstage 5 (by decide)),
    Option.some.inj (hkernel 599999 (by decide)), hbelow 0x7DB7 (by decide) (by decide) (by decide)⟩

end Boot

end BenmoshOS
