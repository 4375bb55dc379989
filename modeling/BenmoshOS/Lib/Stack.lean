import BenmoshOS.Lib.X86

/-!
# Stacks of the x86 fragment as lists of words

`WordsAt m a ws` says that the words `ws` lie in memory from address `a` on.  A push puts a
word in front of the list, a drop takes one off.  Distances between addresses are taken
modulo 2^32, so the rules hold wherever a stack lies.
-/

namespace BenmoshOS.X86

/-- How far address `x` is above address `a`. -/
def above (a x : BitVec 32) : Nat := (x - a).toNat

/-- The words `ws` lie in memory from address `a` on. -/
def WordsAt (m : Machine) : BitVec 32 → List (BitVec 32) → Prop
  | _, [] => True
  | a, w :: ws => m.read a = w ∧ WordsAt m (a + 4) ws

section Memory

variable {m m' : Machine} {a x v : BitVec 32} {ws : List (BitVec 32)}

/-- A store changes four bytes. -/
theorem mem_write_of_le (h : 4 ≤ above a x) : (m.write a v).mem x = m.mem x := by
  unfold above at h
  have h0 : x ≠ a := by bv_omega
  have h1 : x ≠ a + 1 := by bv_omega
  have h2 : x ≠ a + 2 := by bv_omega
  have h3 : x ≠ a + 3 := by bv_omega
  simp only [Machine.write, h0, h1, h2, h3, if_false]

/-- A word depends on its four bytes. -/
theorem read_congr (h : ∀ x, above a x < 4 → m'.mem x = m.mem x) : m'.read a = m.read a := by
  unfold above at h
  unfold Machine.read
  rw [h a (by bv_omega), h (a + 1) (by bv_omega), h (a + 2) (by bv_omega),
    h (a + 3) (by bv_omega)]

theorem WordsAt.congr : ∀ {ws : List (BitVec 32)} {a : BitVec 32}, WordsAt m a ws →
    4 * ws.length ≤ 2 ^ 32 → (∀ x, above a x < 4 * ws.length → m'.mem x = m.mem x) →
    WordsAt m' a ws := by
  intro ws
  induction ws with
  | nil => exact fun _ _ _ => trivial
  | cons w ws ih =>
      intro a h hlen hmem
      rw [List.length_cons] at hlen hmem
      refine ⟨?_, ih h.2 (by omega) fun x hx => hmem x ?_⟩
      · rw [← h.1]
        exact read_congr fun x hx => hmem x (by omega)
      · unfold above at hx ⊢
        bv_omega

theorem WordsAt.append {vs : List (BitVec 32)} : ∀ {us : List (BitVec 32)} {a : BitVec 32},
    WordsAt m a (us ++ vs) →
      WordsAt m a us ∧ WordsAt m (a + BitVec.ofNat 32 (4 * us.length)) vs := by
  intro us
  induction us with
  | nil => exact fun h => ⟨trivial, by simpa using h⟩
  | cons u us ih =>
      intro a h
      obtain ⟨hus, hvs⟩ := ih h.2
      refine ⟨⟨h.1, hus⟩, ?_⟩
      have haddr : a + BitVec.ofNat 32 (4 * (u :: us).length) =
          a + 4 + BitVec.ofNat 32 (4 * us.length) := by
        rw [List.length_cons]
        bv_omega
      rwa [haddr]

end Memory

section Slots

variable {v w : BitVec 32} {ws : List (BitVec 32)}

/-- A store into one of the words replaces it. -/
theorem WordsAt.replace : ∀ {us : List (BitVec 32)} {m : Machine} {a : BitVec 32},
    WordsAt m a (us ++ w :: ws) → 4 * (us.length + ws.length + 1) ≤ 2 ^ 32 →
    WordsAt (m.write (a + BitVec.ofNat 32 (4 * us.length)) v) a (us ++ v :: ws) := by
  intro us
  induction us with
  | nil =>
      intro m a h hlen
      rw [List.length_nil, Nat.zero_add] at hlen
      have haddr : a + BitVec.ofNat 32 (4 * ([] : List (BitVec 32)).length) = a := BitVec.add_zero a
      rw [haddr]
      refine ⟨read_write_self m a v, h.2.congr (by omega) fun x hx => mem_write_of_le ?_⟩
      unfold above at hx ⊢
      bv_omega
  | cons u us ih =>
      intro m a h hlen
      rw [List.length_cons] at hlen
      have haddr : a + BitVec.ofNat 32 (4 * (u :: us).length) =
          a + 4 + BitVec.ofNat 32 (4 * us.length) := by
        rw [List.length_cons]
        bv_omega
      rw [haddr]
      refine ⟨?_, ih h.2 (by omega)⟩
      rw [← h.1]
      refine read_congr fun x hx => mem_write_of_le ?_
      unfold above at hx ⊢
      bv_omega

end Slots

/-! ## Pushing -/

section Push

variable {m : Machine} {v : BitVec 32} {ws : List (BitVec 32)}

@[simp] theorem push_esp (m : Machine) (v : BitVec 32) : (m.push v).esp = m.esp - 4 := rfl

/-- A push changes the four bytes below the stack pointer. -/
theorem mem_push {x : BitVec 32} (h : 4 ≤ above (m.esp - 4) x) : (m.push v).mem x = m.mem x :=
  mem_write_of_le (m := ({ m with esp := m.esp - 4 } : Machine)) h

/-- A push puts a word in front of the stack. -/
theorem WordsAt.push (h : WordsAt m m.esp ws) (hlen : 4 * ws.length + 4 ≤ 2 ^ 32) :
    WordsAt (m.push v) (m.push v).esp (v :: ws) := by
  refine ⟨read_write_self _ _ _, ?_⟩
  rw [push_esp, BitVec.sub_add_cancel]
  refine h.congr (by omega) fun x hx => mem_push ?_
  unfold above at hx ⊢
  bv_omega

/-- Words pushed one after the other. -/
def pushAll (m : Machine) (vs : List (BitVec 32)) : Machine := vs.foldl Machine.push m

theorem pushAll_cons (m : Machine) (v : BitVec 32) (vs : List (BitVec 32)) :
    pushAll m (v :: vs) = pushAll (m.push v) vs := rfl

theorem esp_pushAll (vs : List (BitVec 32)) : ∀ m : Machine,
    (pushAll m vs).esp = m.esp - BitVec.ofNat 32 (4 * vs.length) := by
  induction vs with
  | nil => intro m; exact (BitVec.sub_zero _).symm
  | cons v vs ih =>
      intro m
      rw [pushAll_cons, ih, push_esp, List.length_cons]
      bv_omega

/-- The last word pushed is in front. -/
theorem WordsAt.pushAll {vs : List (BitVec 32)} : ∀ {m : Machine} {ws : List (BitVec 32)},
    WordsAt m m.esp ws → 4 * (vs.length + ws.length) ≤ 2 ^ 32 →
    WordsAt (pushAll m vs) (pushAll m vs).esp (vs.reverse ++ ws) := by
  induction vs with
  | nil => exact fun h _ => h
  | cons v vs ih =>
      intro m ws h hlen
      rw [List.length_cons] at hlen
      have hpush : WordsAt (m.push v) (m.push v).esp (v :: ws) := h.push (by omega)
      have := ih hpush (by rw [List.length_cons]; omega)
      rw [pushAll_cons, List.reverse_cons, List.append_assoc]
      exact this

/-- Pushing changes the bytes below the stack pointer. -/
theorem mem_pushAll {vs : List (BitVec 32)} {x : BitVec 32} : ∀ {m : Machine},
    4 * vs.length ≤ 2 ^ 32 →
    4 * vs.length ≤ above (m.esp - BitVec.ofNat 32 (4 * vs.length)) x →
    (X86.pushAll m vs).mem x = m.mem x := by
  induction vs with
  | nil => exact fun _ _ => rfl
  | cons v vs ih =>
      intro m hlen h
      rw [List.length_cons] at hlen h
      unfold above at h
      rw [pushAll_cons, ih (by omega), mem_push]
      · unfold above
        bv_omega
      · rw [push_esp]
        unfold above
        bv_omega

end Push

/-! ## A stack with its floor -/

/-- The words `ws` are what has been pushed on the stack since its pointer was `base`. -/
structure StackOn (base : BitVec 32) (m : Machine) (ws : List (BitVec 32)) : Prop where
  words : WordsAt m m.esp ws
  depth : m.esp = base - BitVec.ofNat 32 (4 * ws.length)

section Floor

variable {base v : BitVec 32} {m m' : Machine} {ws : List (BitVec 32)}

theorem StackOn.nil (m : Machine) : StackOn m.esp m [] := ⟨trivial, (BitVec.sub_zero _).symm⟩

theorem StackOn.push (h : StackOn base m ws) (hlen : 4 * ws.length + 4 ≤ 2 ^ 32) :
    StackOn base (m.push v) (v :: ws) := by
  refine ⟨h.words.push hlen, ?_⟩
  rw [push_esp, h.depth, List.length_cons]
  bv_omega

theorem StackOn.pushAll (h : StackOn base m ws) (vs : List (BitVec 32))
    (hlen : 4 * (vs.length + ws.length) ≤ 2 ^ 32) :
    StackOn base (pushAll m vs) (vs.reverse ++ ws) := by
  refine ⟨h.words.pushAll hlen, ?_⟩
  rw [esp_pushAll, h.depth, List.length_append, List.length_reverse]
  bv_omega

/-- Registers do not matter to the stack. -/
theorem WordsAt.of_mem (hmem : m'.mem = m.mem) : ∀ {ws : List (BitVec 32)} {a : BitVec 32},
    WordsAt m a ws → WordsAt m' a ws := by
  intro ws
  induction ws with
  | nil => exact fun _ => trivial
  | cons w ws ih =>
      intro a h
      exact ⟨(read_congr fun x _ => congrFun hmem x).trans h.1, ih h.2⟩

theorem StackOn.of_same (h : StackOn base m ws) (hmem : m'.mem = m.mem) (hesp : m'.esp = m.esp) :
    StackOn base m' ws :=
  ⟨hesp ▸ h.words.of_mem hmem, hesp.trans h.depth⟩

/-- A pop takes the first word. -/
theorem StackOn.drop (h : StackOn base m (v :: ws)) : m.top = v ∧ StackOn base m.drop ws := by
  refine ⟨h.words.1, ?_, ?_⟩
  · refine WordsAt.of_mem ?_ h.words.2
    exact drop_mem m
  · show m.esp + 4 = _
    rw [h.depth, List.length_cons]
    bv_omega

end Floor

/-! ## Registers -/

section Registers

variable (m : Machine) (v : BitVec 32)

@[simp] theorem push_eax : (m.push v).eax = m.eax := rfl

@[simp] theorem push_ecx : (m.push v).ecx = m.ecx := rfl

@[simp] theorem push_edx : (m.push v).edx = m.edx := rfl

@[simp] theorem push_ebx : (m.push v).ebx = m.ebx := rfl

@[simp] theorem push_ebp : (m.push v).ebp = m.ebp := rfl

@[simp] theorem push_esi : (m.push v).esi = m.esi := rfl

@[simp] theorem push_edi : (m.push v).edi = m.edi := rfl

theorem pushAll_get {r : Reg} (hr : r ≠ .esp) (vs : List (BitVec 32)) :
    ∀ m : Machine, (pushAll m vs).get r = m.get r := by
  induction vs with
  | nil => exact fun _ => rfl
  | cons v vs ih => exact fun m => (ih _).trans (push_get m v r hr)

/-- `pushad` pushes the registers as they were before it. -/
theorem eval_pushad : Instr.eval .pushad m =
    pushAll m [m.eax, m.ecx, m.edx, m.ebx, m.esp, m.ebp, m.esi, m.edi] := by
  simp only [Instr.eval, pushAll, List.foldl_cons, List.foldl_nil, push_ebp, push_esi, push_edi]

/-- `popad` takes the registers from the words that `pushad` leaves. -/
theorem popad_restores {c m : Machine} {x : BitVec 32} {ws : List (BitVec 32)}
    (h : WordsAt m m.esp ([c.edi, c.esi, c.ebp, x, c.ebx, c.edx, c.ecx, c.eax] ++ ws)) :
    (∀ r, r ≠ .esp → (Instr.eval .popad m).get r = c.get r) ∧
      WordsAt m (m.esp + 32) ws ∧ (Instr.eval .popad m).esp = m.esp + 32 := by
  obtain ⟨hedi, hesi, hebp, -, hebx, hedx, hecx, heax, hws⟩ := h
  have hesp : m.esp + 4 + 4 + 4 + 4 + 4 + 4 + 4 + 4 = m.esp + 32 := by bv_omega
  refine ⟨fun r hr => ?_, hesp ▸ hws, hesp⟩
  cases r with
  | eax => exact heax
  | ecx => exact hecx
  | edx => exact hedx
  | ebx => exact hebx
  | esp => exact absurd rfl hr
  | ebp => exact hebp
  | esi => exact hesi
  | edi => exact hedi

end Registers

end BenmoshOS.X86
