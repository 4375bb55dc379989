import BenmoshOS.Boot.Loader
import BenmoshOS.Lib.LittleEndian
import BenmoshOS.Pmm.Init

/-!
# The firmware's memory map: `load_pmm` of `bootloader/boot.asm`

Stage 2 asks the BIOS for the memory map, one descriptor a call, and leaves a table at `0x5000`
that ends with a descriptor of length 0.  `pmm_init` reads it there.

* `Bios` — `int 0x15` with `EAX = 0xE820`: what a call with a continuation value answers.
* `Serves` — the BIOS hands out a list of descriptors, whichever way it ends it.
* `load_pmm_hands_over` — the frame allocator that starts from the table in memory is the one that
  starts from the list of the BIOS.
-/

namespace BenmoshOS

namespace Boot

open Exec LittleEndian
open Pmm (MemorymapEntry scanMap pmmInit)

/-- What the BIOS puts at `ES:DI`, and the continuation value it returns in `EBX`. -/
structure Descriptor where
  entry : MemorymapEntry
  acpiExt : UInt32
  next : UInt32

/-- The BIOS by the continuation value of the call; `none` is a call that returns with the carry
flag or without the signature. -/
abbrev Bios := UInt32 → Option Descriptor

/-- The registers and the memory of the loop. -/
structure Mapper where
  di : UInt16
  ebx : UInt32
  bp : UInt16
  mem : Memory

/-- The 24 bytes of a descriptor. -/
def putEntry (mem : Memory) (a : Nat) (d : Descriptor) : Memory :=
  store (store (store (store mem a d.entry.base.toNat 8) (a + 8) d.entry.length.toNat 8)
    (a + 16) d.entry.type.toNat 4) (a + 20) d.acpiExt.toNat 4

/-- `.done_pmm`: a length of 0 behind the table. -/
def Mapper.terminate (s : Mapper) : Memory :=
  store (store s.mem (s.di + 8).toNat 0 4) (s.di + 12).toNat 0 4

/-- One round of `load_pmm`. -/
def mapRound (bios : Bios) (s : Mapper) : Exec (Mapper ⊕ Memory) :=
  match bios s.ebx with
  | none => .ret (.inr s.terminate)
  | some d =>
      let s : Mapper := ⟨s.di + 24, d.next, s.bp + 1, putEntry s.mem s.di.toNat d⟩
      if s.ebx = 0 then .ret (.inr s.terminate) else .ret (.inl s)

/-- `load_pmm`, as `sect2_start` calls it. -/
def loadPmm (bios : Bios) (mem : Memory) (fuel : Nat) : Exec Memory :=
  Exec.loop (mapRound bios) fuel ⟨0x5000, 0, 0, mem⟩

/-- The `struct memorymap_entry` at an address. -/
def entryAt (mem : Memory) (a : Nat) : MemorymapEntry where
  base := UInt64.ofNat (load mem a 8)
  length := UInt64.ofNat (load mem (a + 8) 8)
  type := UInt32.ofNat (load mem (a + 16) 4)

/-- The first `n` entries of the table at an address: what `entry` and `entry++` walk over. -/
def tableAt (mem : Memory) (a : Nat) : Nat → List MemorymapEntry
  | 0 => []
  | n + 1 => entryAt mem a :: tableAt mem (a + 24) n

/-- From a continuation value on, the BIOS hands out these descriptors. -/
inductive Serves (bios : Bios) : UInt32 → List Descriptor → Prop where
  /-- The end of the list, or an error, shows in the carry flag. -/
  | stop {k : UInt32} : bios k = none → Serves bios k []
  /-- The last descriptor comes with the continuation value 0. -/
  | last {k : UInt32} {d : Descriptor} : bios k = some d → d.next = 0 → Serves bios k [d]
  | more {k : UInt32} {d : Descriptor} {ds : List Descriptor} :
      bios k = some d → d.next ≠ 0 → Serves bios d.next ds → Serves bios k (d :: ds)

/-! ## Entries in memory -/

section Entries

variable {mem mem' : Memory} {a b : Nat} {d : Descriptor}

theorem entryAt_congr (h : ∀ i < 24, mem' (a + i) = mem (a + i)) : entryAt mem' a = entryAt mem a := by
  have hpart : ∀ k n, k + n ≤ 24 → load mem' (a + k) n = load mem (a + k) n := fun k n hk =>
    load_congr fun i hi => by
      rw [Nat.add_assoc]
      exact h (k + i) (by omega)
  rw [entryAt, entryAt, hpart 8 8 (by decide), hpart 16 4 (by decide)]
  rw [← Nat.add_zero a, hpart 0 8 (by decide)]

theorem putEntry_of_outside {x : Nat} (h : x < a ∨ a + 24 ≤ x) : putEntry mem a d x = mem x := by
  unfold putEntry
  rw [store_of_outside (by omega), store_of_outside (by omega), store_of_outside (by omega),
    store_of_outside (by omega)]

/-- A descriptor is read back from memory. -/
theorem entryAt_putEntry (mem : Memory) (a : Nat) (d : Descriptor) :
    entryAt (putEntry mem a d) a = d.entry := by
  have hbase : load (putEntry mem a d) a 8 = d.entry.base.toNat := by
    unfold putEntry
    rw [load_store_of_apart (by omega), load_store_of_apart (by omega),
      load_store_of_apart (by omega), load_store]
    exact Nat.mod_eq_of_lt d.entry.base.toNat_lt
  have hlength : load (putEntry mem a d) (a + 8) 8 = d.entry.length.toNat := by
    unfold putEntry
    rw [load_store_of_apart (by omega), load_store_of_apart (by omega), load_store]
    exact Nat.mod_eq_of_lt d.entry.length.toNat_lt
  have htype : load (putEntry mem a d) (a + 16) 4 = d.entry.type.toNat := by
    unfold putEntry
    rw [load_store_of_apart (by omega), load_store]
    exact Nat.mod_eq_of_lt d.entry.type.toNat_lt
  rw [entryAt, hbase, hlength, htype, UInt64.ofNat_toNat, UInt64.ofNat_toNat, UInt32.ofNat_toNat]

end Entries

/-! ## The table -/

/-- The table that `ds` leaves at an address, ended by a length of 0. -/
def Table (mem : Memory) : Nat → List Descriptor → Prop
  | a, [] => (entryAt mem a).length = 0
  | a, d :: ds => entryAt mem a = d.entry ∧ Table mem (a + 24) ds

section Table

variable {mem mem' : Memory} {a : Nat} {ds : List Descriptor} {bios : Bios}

/-- The length of 0 behind the table, and what it leaves alone. -/
theorem terminate_spec {s : Mapper} (hroom : s.di.toNat + 16 ≤ 0x7A00) :
    Table s.terminate s.di.toNat [] ∧
      ∀ x, x < s.di.toNat ∨ s.di.toNat + 16 ≤ x → s.terminate x = s.mem x := by
  have h₈ : (s.di + 8).toNat = s.di.toNat + 8 := by
    rw [UInt16.toNat_add]
    simp only [UInt16.reduceToNat]
    omega
  have h₁₂ : (s.di + 12).toNat = s.di.toNat + 12 := by
    rw [UInt16.toNat_add]
    simp only [UInt16.reduceToNat]
    omega
  refine ⟨?_, fun x hx => ?_⟩
  · have hzero : load s.terminate (s.di.toNat + 8) 8 = 0 := by
      refine (load_of_bytes (v := 0) fun i hi => ?_).trans (Nat.zero_mod _)
      rw [Mapper.terminate, h₈, h₁₂, Nat.zero_div]
      by_cases hlow : i < 4
      · rw [store_of_outside (by omega), store, if_pos (by omega), Nat.zero_div]
      · rw [store, if_pos (by omega), Nat.zero_div]
    rw [Table, entryAt, hzero]
    rfl
  · rw [Mapper.terminate, h₈, h₁₂, store_of_outside (by omega), store_of_outside (by omega)]

/-- A round that is answered. -/
theorem mapRound_some {k : UInt32} {d : Descriptor} (hbios : bios k = some d) {di bp : UInt16} :
    mapRound bios ⟨di, k, bp, mem⟩ =
      if d.next = 0 then .ret (.inr (Mapper.terminate ⟨di + 24, d.next, bp + 1,
        putEntry mem di.toNat d⟩))
      else .ret (.inl ⟨di + 24, d.next, bp + 1, putEntry mem di.toNat d⟩) := by
  simp only [mapRound, hbios]

/-- `mem'` holds the table of `ds` at an address and is elsewhere as `mem`. -/
structure Holds (mem mem' : Memory) (a : Nat) (ds : List Descriptor) : Prop where
  table : Table mem' a ds
  frame : ∀ x, x < a ∨ a + 24 * ds.length + 16 ≤ x → mem' x = mem x

/-- A descriptor in front of a table that is already there. -/
theorem Holds.cons {d : Descriptor} (h : Holds (putEntry mem a d) mem' (a + 24) ds) :
    Holds mem mem' a (d :: ds) := by
  refine ⟨⟨?_, h.table⟩, fun x hx => ?_⟩
  · rw [entryAt_congr fun i hi => h.frame _ (Or.inl (by omega)), entryAt_putEntry]
  · rw [List.length_cons] at hx
    rw [h.frame x (by omega), putEntry_of_outside (by omega)]

/-- One round puts one descriptor, the loop the rest. -/
theorem loop_holds {k : UInt32} (hserves : Serves bios k ds) {di bp : UInt16}
    (hroom : di.toNat + 24 * ds.length + 16 ≤ 0x7A00) {fuel : Nat} (hfuel : ds.length < fuel) :
    ∃ mem', Exec.loop (mapRound bios) fuel ⟨di, k, bp, mem⟩ = .ret mem' ∧
      Holds mem mem' di.toNat ds := by
  have hdi : di.toNat + 24 < 2 ^ 16 → (di + 24).toNat = di.toNat + 24 := by
    intro h
    rw [UInt16.toNat_add]
    exact Nat.mod_eq_of_lt h
  induction hserves generalizing di bp mem fuel with
  | @stop k hbios =>
      obtain ⟨fuel, rfl⟩ := Nat.exists_eq_add_one_of_ne_zero (Nat.ne_zero_of_lt hfuel)
      have hround : mapRound bios ⟨di, k, bp, mem⟩ =
          .ret (.inr (Mapper.terminate ⟨di, k, bp, mem⟩)) := by
        simp only [mapRound, hbios]
      obtain ⟨htable, hframe⟩ := @terminate_spec ⟨di, k, bp, mem⟩ hroom
      exact ⟨_, Exec.loop_leave hround, htable, hframe⟩
  | @last k d hbios hnext =>
      obtain ⟨fuel, rfl⟩ := Nat.exists_eq_add_one_of_ne_zero (Nat.ne_zero_of_lt hfuel)
      rw [List.length_singleton] at hroom
      have hround := (@mapRound_some mem bios k d hbios di bp).trans (if_pos hnext)
      obtain ⟨htable, hframe⟩ := @terminate_spec
        ⟨di + 24, d.next, bp + 1, putEntry mem di.toNat d⟩ (by simp only [hdi (by omega)]; omega)
      refine ⟨_, Exec.loop_leave hround, Holds.cons ⟨?_, ?_⟩⟩
      · rw [← hdi (by omega)]
        exact htable
      · rw [← hdi (by omega)]
        exact hframe
  | @more k d ds hbios hnext hserves ih =>
      obtain ⟨fuel, rfl⟩ := Nat.exists_eq_add_one_of_ne_zero (Nat.ne_zero_of_lt hfuel)
      rw [List.length_cons] at hroom hfuel
      have hround := (@mapRound_some mem bios k d hbios di bp).trans (if_neg hnext)
      have hnext' := hdi (by omega)
      obtain ⟨mem', hrun, hholds⟩ := @ih (putEntry mem di.toNat d) (di + 24) (bp + 1) (by omega) fuel
        (by omega) fun h => by rw [UInt16.toNat_add]; exact Nat.mod_eq_of_lt h
      rw [hnext'] at hholds
      exact ⟨mem', (Exec.loop_again hround).trans hrun, hholds.cons⟩

/-- The scan of a table in memory is the scan of its descriptors. -/
theorem scanMap_table {n : Nat} (hn : ds.length < n) (s : Pmm.State) (h : Table mem a ds) :
    scanMap (tableAt mem a n) s = scanMap (ds.map Descriptor.entry) s := by
  induction ds generalizing a n s with
  | nil =>
      obtain ⟨n, rfl⟩ := Nat.exists_eq_add_one_of_ne_zero (Nat.ne_zero_of_lt hn)
      exact if_pos h
  | cons d ds ih =>
      obtain ⟨n, rfl⟩ := Nat.exists_eq_add_one_of_ne_zero (Nat.ne_zero_of_lt hn)
      have hrest := fun s => ih (Nat.lt_of_succ_lt_succ hn) s h.2
      rw [tableAt, scanMap, List.map_cons, scanMap, h.1, hrest]

/-- **The hand-over of the memory map.**  Whatever descriptors the BIOS hands out, and however it
ends the list, `load_pmm` returns, touches only the table at `0x5000`, and leaves there what makes
`pmm_init` start from exactly these descriptors.  The table may take the memory up to half a
kilobyte below the stack of the boot sector. -/
theorem load_pmm_hands_over (bios : Bios) (ds : List Descriptor) (mem : Memory) {fuel : Nat}
    (hserves : Serves bios 0 ds) (hroom : 24 * ds.length + 16 ≤ 0x2A00) (hfuel : ds.length < fuel) :
    ∃ mem', loadPmm bios mem fuel = .ret mem' ∧
      (∀ x, x < 0x5000 ∨ 0x5000 + 24 * ds.length + 16 ≤ x → mem' x = mem x) ∧
      ∀ n kernelEnd, ds.length < n →
        pmmInit (tableAt mem' 0x5000 n) kernelEnd = pmmInit (ds.map Descriptor.entry) kernelEnd := by
  obtain ⟨mem', hrun, hholds⟩ := @loop_holds mem ds bios 0 hserves 0x5000 0
    (by simp only [UInt16.reduceToNat]; omega) fuel hfuel
  refine ⟨mem', hrun, hholds.frame, fun n kernelEnd hn => ?_⟩
  have hscan : scanMap (tableAt mem' 0x5000 n) Pmm.allUsed = _ :=
    scanMap_table hn _ hholds.table
  rw [pmmInit, pmmInit, hscan]

/-- A BIOS with one megabyte of memory in two regions. -/
theorem load_pmm_hands_over_sample :
    let low : Descriptor := ⟨⟨0, 0x9F000, 1⟩, 1, 7⟩
    let high : Descriptor := ⟨⟨0x9F000, 0x61000, 2⟩, 1, 0⟩
    let bios : Bios := fun k => if k = 0 then some low else if k = 7 then some high else none
    ∃ mem', loadPmm bios (fun _ => 0xFF) 3 = .ret mem' ∧
      (∀ x, x < 0x5000 ∨ 0x5000 + 24 * [low, high].length + 16 ≤ x → mem' x = 0xFF) ∧
      ∀ n kernelEnd, [low, high].length < n →
        pmmInit (tableAt mem' 0x5000 n) kernelEnd =
          pmmInit ([low, high].map Descriptor.entry) kernelEnd :=
  load_pmm_hands_over _ [⟨⟨0, 0x9F000, 1⟩, 1, 7⟩, ⟨⟨0x9F000, 0x61000, 2⟩, 1, 0⟩] _
    (.more rfl (by decide) (.last rfl rfl)) (by decide) (by decide)

end Table

end Boot

end BenmoshOS
