import BenmoshOS.Fat16.Names

/-!
# FAT16: insertion of a directory entry

`fat16_insert_entry` looks for a short name that is not taken, for a run of free slots
that is long enough, and writes the records of the entry into it.

* `slotSearch_spec` — the slot search finds the first run of free slots of the needed
  length, or there is none.
* `putRecords` — the disk after a list of records has been written to consecutive
  slots; `writeRecords_clean` says that this is what the write loop does, also across
  sectors.
* `insertEntry_cases` — what a returning `fat16_insert_entry` has done.
-/

namespace BenmoshOS

namespace Fat16

variable {env : Env} {g : Geometry} {d : Disk}

/-! ## Free slots -/

/-- Position `j` of the list is a free slot. -/
def FreeAt (rs : List Record) (j : Nat) : Prop := ∃ r, rs[j]? = some r ∧ r.IsFree

/-- The positions `p, …, p + n - 1` are free slots. -/
def FreeRun (rs : List Record) (p n : Nat) : Prop := ∀ j, p ≤ j → j < p + n → FreeAt rs j

/-- There are `n` free slots in a row. -/
def HasRoom (rs : List Record) (n : Nat) : Prop := ∃ p, FreeRun rs p n

/-- The slots the search ends with: the first `n` free ones in a row. -/
structure Window (rs : List Record) (p n : Nat) : Prop where
  free : FreeRun rs p n
  first : ∀ q, q < p → ¬ FreeRun rs q n

theorem Window.unique {rs : List Record} {p q n : Nat} (h : Window rs p n) (h' : Window rs q n) :
    p = q := by
  rcases Nat.lt_trichotomy p q with hlt | heq | hgt
  · exact absurd h.free (h'.first p hlt)
  · exact heq
  · exact absurd h'.free (h.first q hgt)

/-- The slot before the window is not free. -/
theorem Window.start {rs : List Record} {p n : Nat} (h : Window rs p n) :
    p = 0 ∨ ¬ FreeAt rs (p - 1) := by
  by_cases hp : p = 0
  · exact Or.inl hp
  · refine Or.inr fun hat => h.first (p - 1) (by omega) fun j h₁ h₂ => ?_
    by_cases heq : j = p - 1
    · rw [heq]
      exact hat
    · exact h.free j (by omega) (by omega)

/-- The state of the slot search after `p` records: `k` of them are the run of free
slots right before position `p`. -/
structure SearchState (rs : List Record) (base n p : Nat) (ctx : SlotCtx) : Prop where
  le : ctx.consecutiveFound ≤ p
  lt : ctx.consecutiveFound < n
  free : FreeRun rs (p - ctx.consecutiveFound) ctx.consecutiveFound
  start : p - ctx.consecutiveFound = 0 ∨ ¬ FreeAt rs (p - ctx.consecutiveFound - 1)
  place : 0 < ctx.consecutiveFound →
    ctx.startSector = base + (p - ctx.consecutiveFound) / 16 ∧
    ctx.startSlot = (p - ctx.consecutiveFound) % 16
  done : ctx.done = false
  no_room : ∀ i, i + n ≤ p → ¬ FreeRun rs i n

/-- The result of a finished search. -/
structure SearchDone (rs : List Record) (base n : Nat) (ctx : SlotCtx) (p : Nat) : Prop where
  window : Window rs p n
  done : ctx.done = true
  startSector : ctx.startSector = base + p / 16
  startSlot : ctx.startSlot = p % 16

/-- One record of the slot search. -/
theorem slotSearch_step {rs : List Record} {base n p : Nat} {ctx : SlotCtx} {r : Record}
    (hst : SearchState rs base n p ctx) (hget : rs[p]? = some r) :
    (∃ ctx' q, slotSearchCallback n (base + p / 16) (p % 16) r ctx = (1, ctx') ∧
      SearchDone rs base n ctx' q) ∨
    (∃ ctx', slotSearchCallback n (base + p / 16) (p % 16) r ctx = (0, ctx') ∧
      SearchState rs base n (p + 1) ctx') := by
  obtain ⟨k, sec, slot, done⟩ := ctx
  have hle : k ≤ p := hst.le
  have hlt : k < n := hst.lt
  obtain rfl : done = false := hst.done
  by_cases hfree : r.IsFree
  · have hrun : FreeRun rs (p - k) (k + 1) := by
      intro j hj hj'
      by_cases heq : j = p
      · exact ⟨r, by rw [heq]; exact hget, hfree⟩
      · exact hst.free j hj (by change j < p - k + k; omega)
    have hplace : (if k = 0 then base + p / 16 else sec) = base + (p - k) / 16 ∧
        (if k = 0 then p % 16 else slot) = (p - k) % 16 := by
      by_cases hk : k = 0
      · simp [hk]
      · rw [if_neg hk, if_neg hk]
        exact hst.place (Nat.pos_of_ne_zero hk)
    have hcall : slotSearchCallback n (base + p / 16) (p % 16) r ⟨k, sec, slot, false⟩ =
        if k + 1 = n then
          (1, ⟨k + 1, if k = 0 then base + p / 16 else sec, if k = 0 then p % 16 else slot, true⟩)
        else
          (0, ⟨k + 1, if k = 0 then base + p / 16 else sec, if k = 0 then p % 16 else slot,
            false⟩) := by
      rw [slotSearchCallback, if_pos (show r 0 = 0x00 ∨ r 0 = 0xE5 from hfree)]
      by_cases hk : k = 0 <;> simp [hk]
    by_cases hn : k + 1 = n
    · refine Or.inl ⟨_, p - k, by rw [hcall, if_pos hn], ?_, rfl, hplace.1, hplace.2⟩
      rw [← hn]
      exact ⟨hrun, fun q hq => hn ▸ hst.no_room q (by omega)⟩
    · refine Or.inr ⟨_, by rw [hcall, if_neg hn], ?_⟩
      have hsub : p + 1 - (k + 1) = p - k := by omega
      refine ⟨by change k + 1 ≤ p + 1; omega, by change k + 1 < n; omega, ?_, ?_, fun _ => ?_,
        rfl, ?_⟩
      · change FreeRun rs (p + 1 - (k + 1)) (k + 1)
        rw [hsub]
        exact hrun
      · change p + 1 - (k + 1) = 0 ∨ ¬ FreeAt rs (p + 1 - (k + 1) - 1)
        rw [hsub]
        exact hst.start
      · change _ = base + (p + 1 - (k + 1)) / 16 ∧ _ = (p + 1 - (k + 1)) % 16
        rw [hsub]
        exact hplace
      · -- a run that ends here would begin before the record that is not free
        intro i hi hrun'
        by_cases hbefore : i + n ≤ p
        · exact hst.no_room i hbefore hrun'
        · rcases hst.start with h0 | hbad
          · change p - k = 0 at h0
            omega
          · exact hbad (hrun' (p - k - 1) (by omega) (by omega))
  · refine Or.inr ⟨⟨0, sec, slot, false⟩, if_neg hfree, ?_⟩
    have hat : ¬ FreeAt rs p := by
      rintro ⟨r', hr', hf⟩
      rw [hget] at hr'
      cases hr'
      exact hfree hf
    refine ⟨Nat.zero_le _, by change 0 < n; omega, fun j h₁ h₂ => ?_, Or.inr hat,
      fun h => absurd h (Nat.lt_irrefl 0), rfl, fun i hi hrun => ?_⟩
    · change p + 1 - 0 ≤ j at h₁
      change j < p + 1 - 0 + 0 at h₂
      omega
    · by_cases hle' : i + n ≤ p
      · exact hst.no_room i hle' hrun
      · exact hat (hrun p (by omega) (by omega))

theorem slotSearch_run {rs : List Record} {base n : Nat} : ∀ (ys xs : List Record) (ctx : SlotCtx),
    rs = xs ++ ys → SearchState rs base n xs.length ctx →
    ((visitList (slotSearchCallback n) base ys xs.length ctx).2.done = false ∧ ¬ HasRoom rs n) ∨
    ∃ p, SearchDone rs base n (visitList (slotSearchCallback n) base ys xs.length ctx).2 p := by
  intro ys
  induction ys with
  | nil =>
      intro xs ctx hrs hst
      refine Or.inl ⟨hst.done, ?_⟩
      rintro ⟨i, hi⟩
      by_cases hle : i + n ≤ xs.length
      · exact hst.no_room i hle hi
      · -- the run would reach behind the list
        have hlt := hst.lt
        obtain ⟨r, hr, -⟩ := hi (i + n - 1) (by omega) (by omega)
        have hbound := (List.getElem?_eq_some_iff.1 hr).1
        rw [hrs, List.append_nil] at hbound
        omega
  | cons r ys ih =>
      intro xs ctx hrs hst
      have hget : rs[xs.length]? = some r := by simp [hrs]
      have hlen : (xs ++ [r]).length = xs.length + 1 := by simp
      rcases slotSearch_step hst hget with ⟨ctx', q, hcall, hdone⟩ | ⟨ctx', hcall, hst'⟩
      · rw [visitList_end hcall]
        exact Or.inr ⟨q, hdone⟩
      · rw [visitList_go hcall, ← hlen]
        exact ih (xs ++ [r]) ctx' (by simp [hrs]) (hlen ▸ hst')

/-- **Slot search.**  The search finds the first run of `n` free slots, or there is no
such run. -/
theorem slotSearch_spec (rs : List Record) (base : Nat) {n : Nat} (hn : 0 < n) :
    ((visitList (slotSearchCallback n) base rs 0 SlotCtx.zero).2.done = false ∧ ¬ HasRoom rs n) ∨
    ∃ p, SearchDone rs base n (visitList (slotSearchCallback n) base rs 0 SlotCtx.zero).2 p := by
  refine slotSearch_run rs [] SlotCtx.zero rfl ⟨le_refl _, hn, ?_, Or.inl rfl, ?_, rfl, ?_⟩
  · exact fun j _ h => absurd h (Nat.not_lt_zero j)
  · exact fun h => absurd h (Nat.lt_irrefl 0)
  · intro i hi
    change i + n ≤ 0 at hi
    omega

/-! ## Writing records -/

/-- The disk after the record at position `p` of a directory has been replaced. -/
def putRecord (d : Disk) (base p : Nat) (r : Record) : Disk :=
  d.set (base + p / 16) (setRecord (d (base + p / 16)) (p % 16) r)

/-- The disk after records have been written to the positions from `p` on. -/
def putRecords (d : Disk) (base : Nat) : Nat → List Record → Disk
  | _, [] => d
  | p, r :: rs => putRecords (putRecord d base p r) base (p + 1) rs

theorem slotAt_putRecord {base p q : Nat} {r : Record} (hr : r.Clipped) :
    slotAt (putRecord d base p r) base q = if q = p then r else slotAt d base q := by
  unfold slotAt putRecord
  by_cases hs : q / 16 = p / 16
  · rw [hs, Disk.set_self]
    by_cases hq : q = p
    · rw [if_pos hq, hq, recordAt_setRecord_self hr]
    · rw [if_neg hq, recordAt_setRecord_of_ne (by omega)]
  · rw [Disk.set_of_ne (by omega), if_neg (by rintro rfl; exact hs rfl)]

theorem slots_putRecord (d : Disk) (base p q n : Nat) {r : Record} (hr : r.Clipped) :
    slots (putRecord d base (p + q) r) base p n = (slots d base p n).set q r := by
  apply List.ext_getElem?
  intro i
  rw [slots, slots, List.getElem?_map, List.getElem?_set, List.getElem?_map]
  by_cases hi : i < n
  · simp only [List.getElem?_range' hi, Option.map_some, slotAt_putRecord hr, Nat.one_mul,
      List.length_map, List.length_range']
    by_cases hq : q = i
    · rw [if_pos (by omega), if_pos hq, if_pos (by omega)]
    · rw [if_neg (by omega), if_neg hq]
  · have hnone : (List.range' p n)[i]? = none := by simpa using Nat.le_of_not_lt hi
    rw [hnone]
    simp
    omega

theorem slots_putRecords {base n : Nat} {ns : List Record} (hns : ∀ r ∈ ns, r.Clipped) :
    ∀ (d : Disk) (as ws bs : List Record), slots d base 0 n = as ++ (ws ++ bs) →
      ws.length = ns.length →
      slots (putRecords d base as.length ns) base 0 n = as ++ (ns ++ bs) := by
  induction ns with
  | nil =>
      intro d as ws bs h hlen
      rw [List.length_eq_zero_iff.1 hlen] at h
      exact h
  | cons r ns ih =>
      intro d as ws bs h hlen
      cases ws with
      | nil => simp at hlen
      | cons w ws =>
          have hput := slots_putRecord d base 0 as.length n (hns r (List.mem_cons_self ..))
          rw [Nat.zero_add, h, List.set_append_right _ _ (le_refl _), Nat.sub_self,
            List.cons_append, List.set_cons_zero] at hput
          have hstep := ih (fun r' hr' => hns r' (List.mem_cons_of_mem _ hr'))
            (putRecord d base as.length r) (as ++ [r]) ws bs (by simpa using hput)
            (by simpa using hlen)
          simpa [putRecords] using hstep

/-- The records that have been written are read back. -/
theorem slots_putRecords_self (d : Disk) (base p : Nat) {ns : List Record}
    (hns : ∀ r ∈ ns, r.Clipped) : slots (putRecords d base p ns) base p ns.length = ns := by
  have hsplit : slots d base 0 (p + ns.length) =
      slots d base 0 p ++ (slots d base p ns.length ++ []) := by
    rw [List.append_nil, slots_add, Nat.zero_add]
  have hput := slots_putRecords hns d _ _ _ hsplit (length_slots ..)
  rw [length_slots, slots_add, Nat.zero_add, List.append_nil] at hput
  exact List.append_inj_right hput (by rw [length_slots, length_slots])

/-- Sectors that hold none of the positions keep their contents. -/
theorem putRecords_of_not_mem {base lba : Nat} {ns : List Record} : ∀ (p : Nat) (d : Disk),
    (∀ q, p ≤ q → q < p + ns.length → lba ≠ base + q / 16) →
    putRecords d base p ns lba = d lba := by
  induction ns with
  | nil => intro p d _; rfl
  | cons r ns ih =>
      intro p d h
      rw [List.length_cons] at h
      rw [putRecords, ih (p + 1) _ fun q h₁ h₂ => h q (by omega) (by omega), putRecord,
        Disk.set_of_ne (h p (le_refl _) (by omega))]

/-- The write loop of `fat16_insert_entry`, with the sector under way in `buf`. -/
theorem writeRecords_clean (base : Nat) (ns : List Record) : ∀ (p : Nat) (d : Disk) (buf : Sector),
    writeRecords ns (base + p / 16) buf (p % 16) env (clean d) =
      .ret (eok, clean (putRecords (d.set (base + p / 16) buf) base p ns)) := by
  induction ns with
  | nil => intro p d buf; rfl
  | cons r ns ih =>
      intro p d buf
      have hput : putRecord (d.set (base + p / 16) buf) base p r =
          d.set (base + p / 16) (setRecord buf (p % 16) r) := by
        rw [putRecord, Disk.set_self, Disk.set_set]
      rw [putRecords, hput]
      unfold writeRecords
      by_cases hend : p % 16 + 1 ≥ 16
      · have hdiv : base + p / 16 + 1 = base + (p + 1) / 16 := by omega
        have hmod : 0 = (p + 1) % 16 := by omega
        simp only [hend, if_true, Fs.bind_apply, ataWriteSector_clean, ataReadSector_clean,
          Exec.ret_bind]
        rw [hdiv, hmod, ih, Disk.set_get]
      · have hdiv : p / 16 = (p + 1) / 16 := by omega
        have hmod : p % 16 + 1 = (p + 1) % 16 := by omega
        simp only [hend, if_false]
        rw [hmod, hdiv, ih]

/-! ## Insertion -/

/-- A directory lookups and searches can work on: it is in one piece, and no fragment
reaches the flag behind the long-name buffer. -/
structure Scannable (g : Geometry) (d : Disk) (D : Nat) : Prop where
  flat : Flat g d D
  flagFree : ∀ r ∈ records g d D, FlagFree r

/-- The records of a new entry have been written to the first free slots that suffice,
with a short name that no entry has. -/
def Inserted (g : Geometry) (d : Disk) (D : Nat) (name : Name) (attributes : UInt8)
    (cluster size : Nat) (d' : Disk) : Prop :=
  ∃ attempt p, lookup g d D (tempTarget (generateShortName name attempt)) = none ∧
    Window (records g d D) p (lfnCount name + 1) ∧
    d' = putRecords d (dirBase g D) p
      (newRecords name (generateShortName name attempt) attributes cluster size)

section Insert

variable {D : Nat} {name : Name} {io' : Io}

theorem tryShortName_clean (hD : Scannable env.geom d D) (hfuel : 2 ≤ env.fuel) (attempt : Nat) :
    tryShortName D name attempt env (clean d) =
      .ret (if lookup env.geom d D (tempTarget (generateShortName name attempt)) = none
        then .inr (generateShortName name attempt) else .inl (attempt + 1), clean d) := by
  unfold tryShortName
  simp only [Fs.bind_apply, findInDir_clean _ hD.flat hfuel hD.flagFree, Exec.ret_bind]
  cases lookup env.geom d D (tempTarget (generateShortName name attempt)) with
  | none => rfl
  | some v => rfl

/-- The collision loop ends with a short name that is not taken. -/
theorem shortName_cases (hD : Scannable env.geom d D) (hfuel : 2 ≤ env.fuel) {sfn : List UInt8}
    {attempt : Nat} (h : Fs.loop (tryShortName D name) attempt env (clean d) = .ret (sfn, io')) :
    io' = clean d ∧ ∃ k, sfn = generateShortName name k ∧
      lookup env.geom d D (tempTarget sfn) = none := by
  unfold Fs.loop at h
  generalize env.fuel = fuel at h
  induction fuel generalizing attempt with
  | zero => simp [Exec.loop] at h
  | succ fuel ih =>
      rcases Fs.round_cases h with ⟨attempt', io₁, hr, h'⟩ | hr
      · rw [tryShortName_clean hD hfuel] at hr
        split at hr
        · simp at hr
        · simp only [Exec.ret.injEq, Prod.mk.injEq, Sum.inl.injEq] at hr
          rw [← hr.2] at h'
          exact ih h'
      · rw [tryShortName_clean hD hfuel] at hr
        split at hr
        · rename_i hnone
          simp only [Exec.ret.injEq, Prod.mk.injEq, Sum.inr.injEq] at hr
          rw [← hr.1]
          exact ⟨hr.2.symm, attempt, rfl, hnone⟩
        · simp at hr

/-- **Insertion.**  A returning `fat16_insert_entry` has written the new records, or it
has found no room and has written nothing. -/
theorem insertEntry_cases (hD : Scannable env.geom d D) (hfuel : 2 ≤ env.fuel)
    {attributes : UInt8} {cluster size : Nat} {code : Int}
    (h : insertEntry D name attributes cluster size env (clean d) = .ret (code, io')) :
    (code = -enospc ∧ io' = clean d ∧ ¬ HasRoom (records env.geom d D) (lfnCount name + 1)) ∨
    (code = eok ∧ ∃ d', io' = clean d' ∧
      Inserted env.geom d D name attributes cluster size d') := by
  unfold insertEntry at h
  simp only [Fs.bind_apply] at h
  obtain ⟨⟨sfn, io₁⟩, hname, h⟩ := Exec.bind_eq_ret.1 h
  obtain ⟨rfl, k, rfl, hfresh⟩ := shortName_cases hD hfuel hname
  simp only [iterateDirectory_clean _ hD.flat hfuel, Exec.ret_bind] at h
  rcases slotSearch_spec (records env.geom d D) (dirBase env.geom D)
    (show 0 < lfnCount name + 1 by omega) with ⟨hdone, hroom⟩ | ⟨p, hdone⟩
  · rw [hdone] at h
    simp only [Bool.false_eq_true, if_false, Fs.pure_apply, Exec.ret.injEq, Prod.mk.injEq] at h
    exact Or.inl ⟨h.1.symm, h.2.symm, hroom⟩
  · rw [hdone.done, hdone.startSector, hdone.startSlot] at h
    simp only [if_true, Fs.bind_apply, ataReadSector_clean, Exec.ret_bind,
      writeRecords_clean, Disk.set_get, Exec.ret.injEq, Prod.mk.injEq] at h
    exact Or.inr ⟨h.1.symm, _, h.2.symm, k, p, hfresh, hdone.window, rfl⟩

end Insert

/-- A window splits the list of records into what is before, in and behind it. -/
theorem Window.split {rs : List Record} {p n : Nat} (h : Window rs p n) (hn : 0 < n)
    (hz : ZeroTail rs) :
    ∃ as ws bs, rs = as ++ (ws ++ bs) ∧ as.length = p ∧ ws.length = n ∧
      (∀ r ∈ ws, r.IsFree) ∧ (∀ r ∈ as, r 0 ≠ 0x00) := by
  have hle : p + n ≤ rs.length := by
    obtain ⟨r, hr, -⟩ := h.free (p + n - 1) (by omega) (by omega)
    have := (List.getElem?_eq_some_iff.1 hr).1
    omega
  refine ⟨rs.take p, (rs.drop p).take n, rs.drop (p + n), ?_, ?_, ?_, ?_, ?_⟩
  · rw [← List.drop_drop, List.take_append_drop, List.take_append_drop]
  · rw [List.length_take]
    omega
  · rw [List.length_take, List.length_drop]
    omega
  · intro r hr
    obtain ⟨j, hj, rfl⟩ := List.getElem_of_mem hr
    rw [List.length_take, List.length_drop] at hj
    obtain ⟨r', hr', hf⟩ := h.free (p + j) (by omega) (by omega)
    rw [List.getElem?_eq_getElem (by omega)] at hr'
    rw [List.getElem_take, List.getElem_drop, Option.some.inj hr']
    exact hf
  · -- otherwise the slot before the window would be free
    intro r hr hr₀
    obtain ⟨j, hj, rfl⟩ := List.getElem_of_mem hr
    rw [List.length_take] at hj
    rw [List.getElem_take] at hr₀
    rcases h.start with hp | hp
    · omega
    · refine hp ⟨rs.get ⟨p - 1, by omega⟩, List.getElem?_eq_getElem (by omega), Or.inl ?_⟩
      by_cases heq : j = p - 1
      · subst heq
        exact hr₀
      · exact List.pairwise_iff_getElem.1 hz j (p - 1) (by omega) (by omega) (by omega) hr₀

theorem clipped_newRecords {name : Name} {sfn : List UInt8} {attributes : UInt8} {cluster size : Nat}
    (hsfn : sfn.length = 11) : ∀ r ∈ newRecords name sfn attributes cluster size, r.Clipped := by
  intro r hr
  rw [newRecords_eq] at hr
  rcases List.mem_append.1 hr with hr | hr
  · obtain ⟨idx, last, -, -, rfl⟩ := mem_lfnRecords hr
    exact clipped_lfnRecord
  · rw [List.mem_singleton.1 hr]
    exact clipped_sfnRecord hsfn

theorem length_newRecords (name : Name) (sfn : List UInt8) (attributes : UInt8)
    (cluster size : Nat) :
    (newRecords name sfn attributes cluster size).length = lfnCount name + 1 := by
  rw [newRecords_eq, List.length_append, length_lfnRecords, List.length_singleton]

/-- Records that do not end the scan are put into slots in front of which it does not end. -/
theorem ZeroTail.insert {as ws ns bs : List Record} (h : ZeroTail (as ++ (ws ++ bs)))
    (has : ∀ r ∈ as, r 0 ≠ 0x00) (hns : ∀ r ∈ ns, r 0 ≠ 0x00) : ZeroTail (as ++ (ns ++ bs)) := by
  have hbs := (List.pairwise_append.1 (List.pairwise_append.1 h).2.1).2.1
  have hnone : ∀ r ∈ as ++ ns, r 0 ≠ 0x00 := by
    intro r hr
    rcases List.mem_append.1 hr with hr | hr
    · exact has r hr
    · exact hns r hr
  rw [← List.append_assoc]
  refine List.pairwise_append.2 ⟨?_, hbs, ?_⟩
  · exact List.pairwise_of_forall_mem_list fun r hr r' _ hr₀ => absurd hr₀ (hnone r hr)
  · exact fun r hr r' _ hr₀ => absurd hr₀ (hnone r hr)

/-- The long-name buffer with which a scan arrives at position `p`. -/
def pendingBuffer (rs : List Record) (p : Nat) : Nat → UInt8 := bufferAfter emptyBuffer (rs.take p)

/-- What an insertion does to its directory: one more visit, and nothing else. -/
structure InsertSpec (g : Geometry) (d : Disk) (D : Nat) (name : Name) (attributes : UInt8)
    (cluster size : Nat) (d' : Disk) (attempt p : Nat) (vs ts : List Visit) : Prop where
  fresh : lookup g d D (tempTarget (generateShortName name attempt)) = none
  window : Window (records g d D) p (lfnCount name + 1)
  before : entries g d D = vs ++ ts
  after : entries g d' D = vs ++
    ⟨p + lfnCount name,
      bufferAfter (pendingBuffer (records g d D) p)
        (lfnRecords name (lfnChecksum (generateShortName name attempt))),
      sfnRecord (generateShortName name attempt) attributes cluster size⟩ :: ts
  zeroTail : ZeroTail (records g d' D)
  flagFree : (∀ r ∈ records g d D, FlagFree r) → ∀ r ∈ records g d' D, FlagFree r
  outside : ∀ lba, lba < dirBase g D ∨ dirBase g D + dirSectors g D ≤ lba → d' lba = d lba

theorem Inserted.spec {D : Nat} {name : Name} {attributes : UInt8} {cluster size : Nat} {d' : Disk}
    (h : Inserted g d D name attributes cluster size d') (hz : ZeroTail (records g d D))
    (hname : Ascii name) (hlen : name.length ≤ 255)
    (hlfn : attributes ≠ attrLfn) (hlabel : attributes ≠ attrVolumeId) :
    ∃ attempt p vs ts, InsertSpec g d D name attributes cluster size d' attempt p vs ts := by
  obtain ⟨attempt, p, hfresh, hwin, rfl⟩ := h
  obtain ⟨as, ws, bs, hrs, rfl, hws, hwfree, has⟩ := hwin.split (by omega) hz
  have hsfn := length_generateShortName name attempt
  have hhead := head_generateShortName hname attempt
  have hls : ∀ r ∈ lfnRecords name (lfnChecksum (generateShortName name attempt)), r.IsLfn := by
    intro r hr
    obtain ⟨idx, last, h₁, h₂, rfl⟩ := mem_lfnRecords hr
    exact isLfn_lfnRecord _ _ _ h₁ (h₂.trans (lfnCount_le hlen))
  have he : (sfnRecord (generateShortName name attempt) attributes cluster size).IsEntry :=
    isEntry_sfnRecord hsfn hhead.1 hhead.2.1 hlfn hlabel
  have hnew := length_newRecords name (generateShortName name attempt) attributes cluster size
  have hrs' : records g (putRecords d (dirBase g D) as.length
      (newRecords name (generateShortName name attempt) attributes cluster size)) D = as ++
      (newRecords name (generateShortName name attempt) attributes cluster size ++ bs) :=
    slots_putRecords (clipped_newRecords hsfn) d as ws bs hrs (hws.trans hnew.symm)
  have hpending : pendingBuffer (records g d D) as.length = bufferAfter emptyBuffer as := by
    rw [pendingBuffer, hrs, List.take_left']
    rfl
  have hz' : ZeroTail (as ++ (ws ++ bs)) := hrs ▸ hz
  have hins := visits_insert (p := 0) (b := emptyBuffer) has hwfree
    (by rw [length_lfnRecords]; exact hws) hls he hz'
  rw [length_lfnRecords, Nat.zero_add] at hins
  have hnonzero : ∀ r ∈ newRecords name (generateShortName name attempt) attributes cluster size,
      r 0 ≠ 0x00 := by
    intro r hr hr₀
    rw [newRecords_eq] at hr
    rcases List.mem_append.1 hr with hr | hr
    · exact (hls r hr).1 (Or.inl hr₀)
    · rw [List.mem_singleton.1 hr] at hr₀
      exact he.not_free (Or.inl hr₀)
  refine ⟨attempt, as.length, visits 0 emptyBuffer as,
    visits (as.length + ws.length) emptyBuffer bs, hfresh, hwin, ?_, ?_, ?_, ?_, ?_⟩
  · rw [entries, hrs]
    exact hins.1
  · rw [entries, hrs', hpending]
    exact hins.2
  · rw [hrs']
    exact hz'.insert has hnonzero
  · intro hflag r hr
    rw [hrs'] at hr
    rw [hrs] at hflag
    rcases List.mem_append.1 hr with hr | hr
    · exact hflag r (List.mem_append_left _ hr)
    · rcases List.mem_append.1 hr with hr | hr
      · rw [newRecords_eq] at hr
        rcases List.mem_append.1 hr with hr | hr
        · obtain ⟨idx, last, h₁, h₂, rfl⟩ := mem_lfnRecords hr
          exact flagFree_lfnRecord hlen (h₂.trans (lfnCount_le hlen))
        · rw [List.mem_singleton.1 hr]
          exact fun hl => absurd hl he.not_lfn
      · exact hflag r (List.mem_append_right _ (List.mem_append_right _ hr))
  · intro lba hlba
    have hbound : as.length + (lfnCount name + 1) ≤ 16 * dirSectors g D := by
      have := congrArg List.length hrs
      simp only [records, length_slots, List.length_append] at this
      omega
    refine putRecords_of_not_mem _ _ fun q h₁ h₂ => ?_
    rw [hnew] at h₂
    omega

end Fat16

end BenmoshOS
