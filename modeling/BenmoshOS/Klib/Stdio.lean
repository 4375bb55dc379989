import BenmoshOS.Klib.Itoh
import BenmoshOS.Print.Console

/-!
# Formatted printing: `klib/stdio.c`

`vprintf` interprets a format string and prints on the console.  Below is the code: a loop over the
bytes of the format, a `switch` for the character behind a per cent sign, and the buffers of
`print_int` and `print_hex`.  Above it is the language of formats: `parse` takes a format apart into
directives, and `Prints` says which text they stand for with which words as arguments.

* `vprintf_prints` — with arguments that fit the format, `vprintf` prints the text and nothing else.
* `vprintf_iff` — it comes back in no other case: a `%s` needs a string, and every conversion a word.
* `vprintf_append` — a format that does not end within a directive can be cut off the rest.
* `vprintf_escaped` — with its per cent signs doubled, any text is printed as it is.

The memory has `size` bytes, and a loop that leaves it yields `none`, as does an argument that is
not there.  `buffer` is what the stack holds where the local buffers are.
-/

namespace BenmoshOS.Klib

open Print

/-! ## The code -/

/-- The loop of `puts` from address `p` on, with `room` bytes of memory left. -/
def putsFrom (mem : Bytes) : Nat → Nat → Console → Option Console
  | 0, _, _ => none
  | room + 1, p, c => if mem p = 0 then some c else putsFrom mem room (p + 1) (c.printChar (mem p))

/-- `print_int`. -/
def printInt (buffer : Bytes) (n : Int32) (c : Console) : Option Console :=
  match itoa 12 n buffer with
  | none => none
  | some str => putsFrom str 12 0 c

/-- `print_hex`. -/
def printHex (buffer : Bytes) (n : Int32) (c : Console) : Option Console :=
  putsFrom (itoh n buffer).1 (9 - (itoh n buffer).2) (itoh n buffer).2 c

/-- `"(null)"` -/
def nullText : List UInt8 := [40, 110, 117, 108, 108, 41]

/-- `va_arg`: the next argument is given to a conversion. -/
def vaArg (args : List UInt32) (use : UInt32 → Option Console) : Option (List UInt32 × Console) :=
  match args with
  | [] => none
  | w :: args => (use w).map (args, ·)

/-- The `switch` of `vprintf`, for the character behind a per cent sign. -/
def convert (mem : Bytes) (size : Nat) (buffer : Bytes) (spec : UInt8) (args : List UInt32)
    (c : Console) : Option (List UInt32 × Console) :=
  if spec = 100 ∨ spec = 105 then vaArg args fun w => printInt buffer w.toInt32 c
  else if spec = 120 ∨ spec = 88 then vaArg args fun w => printHex buffer w.toInt32 c
  else if spec = 115 then
    vaArg args fun w =>
      if w = 0 then some (c.puts nullText) else putsFrom mem (size - w.toNat) w.toNat c
  else if spec = 99 then vaArg args fun w => some (c.printChar w.toUInt8)
  else if spec = 37 then some (args, c.printChar 37)
  else some (args, (c.printChar 37).printChar spec)

/-- The loop of `vprintf` at address `p` of the format, with `room` bytes of memory left. -/
def vprintfFrom (mem : Bytes) (size : Nat) (buffer : Bytes) :
    Nat → Nat → List UInt32 → Console → Option (List UInt32 × Console)
  | 0, _, _, _ => none
  | room + 1, p, args, c =>
      if mem p = 0 then some (args, c)
      else if mem p ≠ 37 then vprintfFrom mem size buffer room (p + 1) args (c.printChar (mem p))
      else
        match room with
        | 0 => none
        | room + 1 =>
            if mem (p + 1) = 0 then some (args, c)
            else (convert mem size buffer (mem (p + 1)) args c).bind fun r =>
              vprintfFrom mem size buffer room (p + 2) r.1 r.2

/-- `vprintf`, with the arguments that are left and the console. -/
def vprintf (mem : Bytes) (size : Nat) (buffer : Bytes) (format : Nat) (args : List UInt32)
    (c : Console) : Option (List UInt32 × Console) :=
  vprintfFrom mem size buffer (size - format) format args c

/-! ## The language of formats -/

/-- What a conversion takes its argument for. -/
inductive Conversion where
  | int
  | hex
  | string
  | char
  deriving DecidableEq, Repr

inductive Directive where
  /-- A character that is printed. -/
  | literal (c : UInt8)
  /-- A text for the next argument. -/
  | arg (k : Conversion)
  deriving DecidableEq, Repr

/-- The directives of a per cent sign and the character behind it. -/
def directives (spec : UInt8) : List Directive :=
  if spec = 100 ∨ spec = 105 then [.arg .int]
  else if spec = 120 ∨ spec = 88 then [.arg .hex]
  else if spec = 115 then [.arg .string]
  else if spec = 99 then [.arg .char]
  else if spec = 37 then [.literal 37]
  else [.literal 37, .literal spec]

/-- A format taken apart.  A per cent sign at the end stands for nothing. -/
def parse : List UInt8 → List Directive
  | [] => []
  | [c] => if c = 37 then [] else [.literal c]
  | c :: d :: fmt => if c = 37 then directives d ++ parse fmt else .literal c :: parse (d :: fmt)

/-- The decimal text of a number.  The least one has no absolute value, and comes out as it does. -/
def intText (n : Int32) : List UInt8 := if n = Int32.minValue then [45, 40] else numeral n.toInt

/-- The word `w` stands for the text `t`. -/
def Shows (mem : Bytes) (size : Nat) (w : UInt32) (t : List UInt8) : Conversion → Prop
  | .int => t = intText w.toInt32
  | .hex => t = hexadecimal w.toNat
  | .string => if w = 0 then t = nullText else StringAt mem w.toNat t ∧ w.toNat + t.length < size
  | .char => t = [w.toUInt8]

/-- `Prints mem size ds args t rest`: with the arguments `args`, of which `rest` are left, the
directives stand for the text `t`. -/
inductive Prints (mem : Bytes) (size : Nat) :
    List Directive → List UInt32 → List UInt8 → List UInt32 → Prop where
  | nil (args : List UInt32) : Prints mem size [] args [] args
  | literal {ds : List Directive} {args rest : List UInt32} {t : List UInt8} (c : UInt8) :
      Prints mem size ds args t rest → Prints mem size (.literal c :: ds) args (c :: t) rest
  | arg {ds : List Directive} {args rest : List UInt32} {t t' : List UInt8} {w : UInt32}
      (k : Conversion) : Shows mem size w t k → Prints mem size ds args t' rest →
      Prints mem size (.arg k :: ds) (w :: args) (t ++ t') rest

/-- A memory that begins with the given bytes. -/
def memoryOf (bytes : List UInt8) : Bytes := fun i => bytes.getD i 0

/-! ## One call of a printing function -/

section Printing

variable {mem buffer : Bytes} {size room p : Nat} {c c' : Console} {args rest : List UInt32}
  {w : UInt32} {t : List UInt8}

theorem puts_append (c : Console) (s t : List UInt8) : c.puts (s ++ t) = (c.puts s).puts t :=
  List.foldl_append

/-- `puts` comes back when there is a string, and has printed it. -/
theorem putsFrom_iff : putsFrom mem room p c = some c' ↔
    ∃ t, StringAt mem p t ∧ t.length < room ∧ c' = c.puts t := by
  induction room generalizing p c with
  | zero => simp [putsFrom]
  | succ room ih =>
      rw [putsFrom]
      by_cases hp : mem p = 0
      · rw [if_pos hp, Option.some.injEq]
        constructor
        · rintro rfl
          exact ⟨[], hp, Nat.succ_pos room, rfl⟩
        · rintro ⟨t, ht, -, rfl⟩
          have hnil : StringAt mem p [] := hp
          rw [ht.unique hnil]
          rfl
      · rw [if_neg hp, ih]
        constructor
        · rintro ⟨t, ht, hlen, rfl⟩
          exact ⟨mem p :: t, ⟨rfl, hp, ht⟩, Nat.succ_lt_succ hlen, rfl⟩
        · rintro ⟨t, ht, hlen, rfl⟩
          cases t with
          | nil => exact absurd ht hp
          | cons d t =>
              obtain ⟨rfl, -, ht⟩ := ht
              exact ⟨t, ht, Nat.lt_of_succ_lt_succ hlen, rfl⟩

theorem printInt_eq (buffer : Bytes) (n : Int32) (c : Console) :
    printInt buffer n c = some (c.puts (intText n)) := by
  unfold printInt intText
  by_cases hn : n = Int32.minValue
  · subst hn
    obtain ⟨str, hitoa, hs⟩ := @itoa_least buffer 12 (by norm_num)
    rw [hitoa, if_pos rfl]
    exact putsFrom_iff.2 ⟨_, hs, by simp, rfl⟩
  · obtain ⟨str, hitoa, hs, -⟩ := @itoa_eq buffer 12 n hn (le_refl 12)
    rw [hitoa, if_neg hn]
    exact putsFrom_iff.2 ⟨_, hs, Nat.lt_succ_of_le (length_numeral_le hn), rfl⟩

theorem printHex_eq (buffer : Bytes) (n : Int32) (c : Console) :
    printHex buffer n c = some (c.puts (hexadecimal n.toUInt32.toNat)) := by
  obtain ⟨hs, hlen, -⟩ := itoh_eq n buffer
  exact putsFrom_iff.2 ⟨_, hs, by omega, rfl⟩

/-- What a conversion prints for its argument. -/
def printArg (mem : Bytes) (size : Nat) (buffer : Bytes) (c : Console) (w : UInt32) :
    Conversion → Option Console
  | .int => printInt buffer w.toInt32 c
  | .hex => printHex buffer w.toInt32 c
  | .string => if w = 0 then some (c.puts nullText) else putsFrom mem (size - w.toNat) w.toNat c
  | .char => some (c.printChar w.toUInt8)

theorem printArg_iff (k : Conversion) : printArg mem size buffer c w k = some c' ↔
    ∃ t, Shows mem size w t k ∧ c' = c.puts t := by
  cases k with
  | int =>
      have hshow : ∀ t, Shows mem size w t .int ↔ t = intText w.toInt32 := fun _ => Iff.rfl
      simp only [printArg, hshow, printInt_eq, Option.some.injEq, exists_eq_left]
      exact eq_comm
  | hex =>
      have hshow : ∀ t, Shows mem size w t .hex ↔ t = hexadecimal w.toInt32.toUInt32.toNat :=
        fun _ => Iff.rfl
      simp only [printArg, hshow, printHex_eq, Option.some.injEq, exists_eq_left]
      exact eq_comm
  | string =>
      simp only [printArg, Shows]
      by_cases hw : w = 0
      · simp only [hw, if_true, Option.some.injEq, exists_eq_left]
        exact eq_comm
      · simp only [hw, if_false, putsFrom_iff]
        refine exists_congr fun t => ?_
        rw [and_assoc, Nat.lt_sub_iff_add_lt']
  | char =>
      have hshow : ∀ t, Shows mem size w t .char ↔ t = [w.toUInt8] := fun _ => Iff.rfl
      simp only [printArg, hshow, Option.some.injEq, exists_eq_left]
      exact eq_comm

end Printing

/-! ## Directives -/

section Directives

variable {mem buffer : Bytes} {size room p : Nat} {c c' : Console} {args mid rest : List UInt32}
  {t t' : List UInt8} {ds ds' : List Directive} {fmt fmt' : List UInt8}

theorem Prints.append (h : Prints mem size ds args t mid) (h' : Prints mem size ds' mid t' rest) :
    Prints mem size (ds ++ ds') args (t ++ t') rest := by
  induction h with
  | nil args => exact h'
  | literal c _ ih => exact .literal c (ih h')
  | arg k hshow _ ih =>
      rw [List.append_assoc]
      exact .arg k hshow (ih h')

/-- The text of a sequence is that of its parts. -/
theorem prints_append : Prints mem size (ds ++ ds') args t rest ↔
    ∃ t₁ mid t₂, Prints mem size ds args t₁ mid ∧ Prints mem size ds' mid t₂ rest ∧
      t = t₁ ++ t₂ := by
  constructor
  · intro h
    induction ds generalizing args t with
    | nil => exact ⟨[], args, t, .nil args, h, rfl⟩
    | cons d ds ih =>
        cases h with
        | literal c h =>
            obtain ⟨t₁, mid, t₂, h₁, h₂, rfl⟩ := ih h
            exact ⟨c :: t₁, mid, t₂, .literal c h₁, h₂, rfl⟩
        | arg k hshow h =>
            obtain ⟨t₁, mid, t₂, h₁, h₂, rfl⟩ := ih h
            exact ⟨_, mid, t₂, .arg k hshow h₁, h₂, (List.append_assoc _ _ _).symm⟩
  · rintro ⟨t₁, mid, t₂, h₁, h₂, rfl⟩
    exact h₁.append h₂

/-- Whether a directive takes an argument. -/
def Directive.isArg : Directive → Bool
  | .literal _ => false
  | .arg _ => true

/-- Directives take one argument for each conversion, and the others do not matter. -/
theorem prints_iff_used : Prints mem size ds args t rest ↔
    ∃ used, args = used ++ rest ∧ used.length = ds.countP Directive.isArg ∧
      Prints mem size ds used t [] := by
  constructor
  · intro h
    induction h with
    | nil args => exact ⟨[], rfl, rfl, .nil []⟩
    | literal c _ ih =>
        obtain ⟨used, hargs, hlen, h⟩ := ih
        exact ⟨used, hargs, hlen, .literal c h⟩
    | @arg ds args rest t t' w k hshow _ ih =>
        obtain ⟨used, rfl, hlen, h⟩ := ih
        refine ⟨w :: used, rfl, ?_, .arg k hshow h⟩
        rw [List.length_cons, hlen]
        exact (List.countP_cons_of_pos rfl).symm
  · rintro ⟨used, rfl, -, h⟩
    -- the arguments behind those that are used are handed through
    induction ds generalizing used t with
    | nil =>
        cases h
        exact .nil rest
    | cons d ds ih =>
        cases h with
        | literal c h => exact .literal c (ih used h)
        | @arg _ used _ _ _ w k hshow h => exact .arg k hshow (ih used h)

theorem prints_nil : Prints mem size [] args t rest ↔ t = [] ∧ rest = args := by
  constructor
  · rintro ⟨⟩
    exact ⟨rfl, rfl⟩
  · rintro ⟨rfl, rfl⟩
    exact .nil _

theorem prints_arg {k : Conversion} : Prints mem size [.arg k] args t rest ↔
    ∃ w, args = w :: rest ∧ Shows mem size w t k := by
  constructor
  · intro h
    cases h with
    | arg k hshow h =>
        obtain ⟨rfl, rfl⟩ := prints_nil.1 h
        exact ⟨_, rfl, (List.append_nil _).symm ▸ hshow⟩
  · rintro ⟨w, rfl, hshow⟩
    have h := Prints.arg k hshow (.nil rest)
    rwa [List.append_nil] at h

/-- Characters alone need no arguments. -/
theorem prints_literals (s : List UInt8) :
    Prints mem size (s.map .literal) args t rest ↔ t = s ∧ rest = args := by
  induction s generalizing t with
  | nil => exact prints_nil
  | cons d s ih =>
      constructor
      · intro h
        cases h with
        | literal c h =>
            obtain ⟨rfl, rfl⟩ := ih.1 h
            exact ⟨rfl, rfl⟩
      · rintro ⟨rfl, rfl⟩
        exact .literal d (ih.2 ⟨rfl, rfl⟩)

theorem vaArg_iff (buffer : Bytes) (k : Conversion) : vaArg args (printArg mem size buffer c · k) = some (rest, c') ↔
    ∃ t, Prints mem size [.arg k] args t rest ∧ c' = c.puts t := by
  simp only [prints_arg]
  cases args with
  | nil => simp [vaArg]
  | cons w args =>
      have hmap : vaArg (w :: args) (printArg mem size buffer c · k) =
          (printArg mem size buffer c w k).map (args, ·) := rfl
      rw [hmap, Option.map_eq_some_iff]
      constructor
      · rintro ⟨c₁, hprint, heq⟩
        obtain ⟨rfl, rfl⟩ := Prod.mk.inj heq
        obtain ⟨t, hshow, rfl⟩ := printArg_iff k |>.1 hprint
        exact ⟨t, ⟨w, rfl, hshow⟩, rfl⟩
      · rintro ⟨t, ⟨w', hw, hshow⟩, rfl⟩
        obtain ⟨rfl, rfl⟩ := List.cons.inj hw
        exact ⟨_, printArg_iff k |>.2 ⟨t, hshow, rfl⟩, rfl⟩

theorem literals_iff (s : List UInt8) : some (args, c.puts s) = some (rest, c') ↔
    ∃ t, Prints mem size (s.map .literal) args t rest ∧ c' = c.puts t := by
  simp only [prints_literals, Option.some.injEq, Prod.mk.injEq]
  constructor
  · rintro ⟨rfl, rfl⟩
    exact ⟨s, ⟨rfl, rfl⟩, rfl⟩
  · rintro ⟨t, ⟨rfl, rfl⟩, rfl⟩
    exact ⟨rfl, rfl⟩

/-- The `switch` prints what the directives of its character stand for. -/
theorem convert_iff (spec : UInt8) : convert mem size buffer spec args c = some (rest, c') ↔
    ∃ t, Prints mem size (directives spec) args t rest ∧ c' = c.puts t := by
  unfold convert directives
  split_ifs
  · exact vaArg_iff buffer .int
  · exact vaArg_iff buffer .hex
  · exact vaArg_iff buffer .string
  · exact vaArg_iff buffer .char
  · exact literals_iff [37]
  · exact literals_iff [37, spec]

/-! The steps of the loop. -/

theorem vprintfFrom_end (h : mem p = 0) :
    vprintfFrom mem size buffer (room + 1) p args c = some (args, c) := by
  rw [vprintfFrom.eq_def]
  exact if_pos h

theorem vprintfFrom_literal (h : mem p ≠ 0) (h37 : mem p ≠ 37) :
    vprintfFrom mem size buffer (room + 1) p args c =
      vprintfFrom mem size buffer room (p + 1) args (c.printChar (mem p)) := by
  rw [vprintfFrom.eq_def]
  exact (if_neg h).trans (if_pos h37)

theorem vprintfFrom_lone (h37 : mem p = 37) (h : mem (p + 1) = 0) :
    vprintfFrom mem size buffer (room + 2) p args c = some (args, c) := by
  have hne : mem p ≠ 0 := by rw [h37]; decide
  rw [vprintfFrom.eq_def]
  exact (if_neg hne).trans ((if_neg (not_not.2 h37)).trans (if_pos h))

theorem vprintfFrom_convert (h37 : mem p = 37) (h : mem (p + 1) ≠ 0) :
    vprintfFrom mem size buffer (room + 2) p args c =
      (convert mem size buffer (mem (p + 1)) args c).bind fun r =>
        vprintfFrom mem size buffer room (p + 2) r.1 r.2 := by
  have hne : mem p ≠ 0 := by rw [h37]; decide
  rw [vprintfFrom.eq_def]
  exact (if_neg hne).trans ((if_neg (not_not.2 h37)).trans (if_neg h))

theorem parse_literal {d : UInt8} (h37 : d ≠ 37) (fmt : List UInt8) :
    parse (d :: fmt) = .literal d :: parse fmt := by
  cases fmt with
  | nil => exact if_neg h37
  | cons e fmt => exact if_neg h37

theorem parse_convert (spec : UInt8) (fmt : List UInt8) :
    parse (37 :: spec :: fmt) = directives spec ++ parse fmt := rfl

/-- The loop of `vprintf`, on a format that the memory holds. -/
theorem vprintfFrom_iff (hfmt : StringAt mem p fmt) (hroom : fmt.length < room) :
    vprintfFrom mem size buffer room p args c = some (rest, c') ↔
      ∃ t, Prints mem size (parse fmt) args t rest ∧ c' = c.puts t := by
  induction hlen : fmt.length using Nat.strong_induction_on generalizing fmt p room args c with
  | _ n ih =>
      obtain ⟨room, rfl⟩ := Nat.exists_eq_add_one_of_ne_zero (Nat.ne_zero_of_lt hroom)
      subst hlen
      cases fmt with
      | nil =>
          have hend : mem p = 0 := hfmt
          rw [vprintfFrom_end hend]
          exact literals_iff []
      | cons d fmt =>
          obtain ⟨rfl, hne, hfmt⟩ := hfmt
          rw [List.length_cons] at hroom ih
          by_cases h37 : mem p = 37
          · -- a directive of its own, or the end of the format behind the sign
            obtain ⟨room, rfl⟩ := Nat.exists_eq_add_one_of_ne_zero
              (Nat.ne_zero_of_lt (Nat.lt_of_succ_lt_succ hroom))
            rw [h37]
            cases fmt with
            | nil =>
                have hend : mem (p + 1) = 0 := hfmt
                rw [vprintfFrom_lone h37 hend]
                exact literals_iff []
            | cons spec fmt =>
                obtain ⟨rfl, hspec, hfmt⟩ := hfmt
                rw [List.length_cons] at hroom ih
                rw [vprintfFrom_convert h37 hspec, parse_convert, Option.bind_eq_some_iff]
                have hroom' : fmt.length < room := by omega
                constructor
                · rintro ⟨⟨mid, c₁⟩, hconvert, hloop⟩
                  obtain ⟨t₁, h₁, rfl⟩ := convert_iff _ |>.1 hconvert
                  obtain ⟨t₂, h₂, rfl⟩ := ih fmt.length (by omega) hfmt hroom' rfl |>.1 hloop
                  exact ⟨t₁ ++ t₂, h₁.append h₂, (puts_append c t₁ t₂).symm⟩
                · rintro ⟨t, h, rfl⟩
                  obtain ⟨t₁, mid, t₂, h₁, h₂, rfl⟩ := prints_append.1 h
                  refine ⟨(mid, c.puts t₁), convert_iff _ |>.2 ⟨t₁, h₁, rfl⟩, ?_⟩
                  exact ih fmt.length (by omega) hfmt hroom' rfl |>.2
                    ⟨t₂, h₂, puts_append c t₁ t₂⟩
          · rw [vprintfFrom_literal hne h37, parse_literal h37,
              ih fmt.length (Nat.lt_succ_self _) hfmt (Nat.lt_of_succ_lt_succ hroom) rfl]
            constructor
            · rintro ⟨t, h, rfl⟩
              exact ⟨_, .literal _ h, rfl⟩
            · rintro ⟨t, h, rfl⟩
              cases h with
              | literal e h => exact ⟨_, h, rfl⟩

end Directives

/-! ## `vprintf` -/

section Vprintf

variable {mem buffer : Bytes} {size p q r : Nat} {c c' : Console} {args rest : List UInt32}
  {fmt fmt' s : List UInt8}

theorem vprintf_cases (hfmt : StringAt mem p fmt) (hsize : p + fmt.length < size)
    (x : List UInt32 × Console) : vprintf mem size buffer p args c = some x ↔
      ∃ t, Prints mem size (parse fmt) args t x.1 ∧ x.2 = c.puts t :=
  vprintfFrom_iff hfmt (by omega)

/-- **What `vprintf` does.**  On a format in memory it comes back exactly when the arguments begin
with a word for every conversion, and the words fit; the others are left, and it has printed the
text of the format. -/
theorem vprintf_iff (hfmt : StringAt mem p fmt) (hsize : p + fmt.length < size) :
    vprintf mem size buffer p args c = some (rest, c') ↔
      ∃ used t, args = used ++ rest ∧ used.length = (parse fmt).countP Directive.isArg ∧
        Prints mem size (parse fmt) used t [] ∧ c' = c.puts t := by
  rw [vprintf_cases hfmt hsize]
  constructor
  · rintro ⟨t, h, hc⟩
    obtain ⟨used, hargs, hlen, hprints⟩ := prints_iff_used.1 h
    exact ⟨used, t, hargs, hlen, hprints, hc⟩
  · rintro ⟨used, t, hargs, hlen, hprints, hc⟩
    exact ⟨t, prints_iff_used.2 ⟨used, hargs, hlen, hprints⟩, hc⟩

/-- The number 255 in the format `"%d=%x"`. -/
theorem vprintf_iff_sample :
    vprintf (memoryOf [37, 100, 61, 37, 120]) 16 (fun _ => 0) 0 [255, 255, 7] bootConsole =
      some ([7], bootConsole.puts [50, 53, 53, 61, 70, 70]) := by
  have hint : [50, 53, 53] = intText (255 : UInt32).toInt32 := by
    have hne : (255 : UInt32).toInt32 ≠ Int32.minValue := by decide
    have hvalue : (255 : UInt32).toInt32.toInt = 255 := by decide
    rw [intText, if_neg hne, hvalue]
    simp [numeral, signBytes, decimal, lowDigits, digitByte]
  have hhex : [70, 70] = hexadecimal (255 : UInt32).toNat := by
    have hvalue : (255 : UInt32).toNat = 255 := by decide
    rw [hvalue]
    simp [hexadecimal, hexByte]
  have hfmt : StringAt (memoryOf [37, 100, 61, 37, 120]) 0 [37, 100, 61, 37, 120] := by
    simp [memoryOf]
  have hprints : Prints (memoryOf [37, 100, 61, 37, 120]) 16
      [.arg .int, .literal 61, .arg .hex] [255, 255] [50, 53, 53, 61, 70, 70] [] :=
    .arg (t := [50, 53, 53]) .int hint (.literal 61 (.arg (t := [70, 70]) .hex hhex (.nil [])))
  exact (vprintf_iff hfmt (by simp)).2 ⟨[255, 255], [50, 53, 53, 61, 70, 70], rfl, rfl, hprints, rfl⟩

/-! ### Formats in parts -/

/-- The format does not end within a directive. -/
def Closed : List UInt8 → Bool
  | [] => true
  | [c] => c ≠ 37
  | c :: d :: fmt => if c = 37 then Closed fmt else Closed (d :: fmt)

theorem parse_append : ∀ {fmt : List UInt8}, Closed fmt = true → ∀ fmt' : List UInt8,
    parse (fmt ++ fmt') = parse fmt ++ parse fmt' := by
  intro fmt
  induction fmt using Closed.induct with
  | case1 => exact fun _ _ => rfl
  | case2 d =>
      intro h fmt'
      have h37 : d ≠ 37 := by simpa [Closed] using h
      rw [List.singleton_append, parse_literal h37, parse_literal h37]
      rfl
  | case3 d fmt ih =>
      intro h fmt'
      have hclosed : Closed fmt = true := by simpa [Closed] using h
      rw [List.cons_append, List.cons_append, parse_convert, parse_convert, ih hclosed,
        List.append_assoc]
  | case4 d e fmt h37 ih =>
      intro h fmt'
      have hclosed : Closed (e :: fmt) = true := by simpa [Closed, h37] using h
      rw [List.cons_append, parse_literal h37, parse_literal h37, ih hclosed]
      rfl

/-- **Formats compose.**  Printing a format that is cut where no directive is open is printing the
two parts, the second one with the arguments that the first one has left. -/
theorem vprintf_append (hp : StringAt mem p (fmt ++ fmt')) (hq : StringAt mem q fmt)
    (hr : StringAt mem r fmt') (hclosed : Closed fmt = true)
    (hps : p + (fmt ++ fmt').length < size) (hqs : q + fmt.length < size)
    (hrs : r + fmt'.length < size) :
    vprintf mem size buffer p args c =
      (vprintf mem size buffer q args c).bind fun x => vprintf mem size buffer r x.1 x.2 := by
  refine Option.ext fun x => ?_
  rw [vprintf_cases hp hps, Option.bind_eq_some_iff, parse_append hclosed]
  constructor
  · rintro ⟨t, h, hx⟩
    obtain ⟨t₁, mid, t₂, h₁, h₂, rfl⟩ := prints_append.1 h
    refine ⟨(mid, c.puts t₁), (vprintf_cases hq hqs _).2 ⟨t₁, h₁, rfl⟩, ?_⟩
    exact (vprintf_cases hr hrs _).2 ⟨t₂, h₂, hx.trans (puts_append c t₁ t₂)⟩
  · rintro ⟨⟨mid, c₁⟩, hfirst, hsecond⟩
    obtain ⟨t₁, h₁, rfl⟩ := (vprintf_cases hq hqs _).1 hfirst
    obtain ⟨t₂, h₂, hx⟩ := (vprintf_cases hr hrs _).1 hsecond
    exact ⟨t₁ ++ t₂, h₁.append h₂, hx.trans (puts_append c t₁ t₂).symm⟩

/-- The format `"%d=%x"`, and its two parts behind it. -/
def smallFormats : Bytes := memoryOf [37, 100, 61, 37, 120, 0, 37, 100, 61, 0, 37, 120]

/-- The format is cut behind the equals sign. -/
theorem vprintf_append_sample :
    vprintf smallFormats 16 (fun _ => 0) 0 [255, 255] bootConsole =
      (vprintf smallFormats 16 (fun _ => 0) 6 [255, 255] bootConsole).bind fun x =>
        vprintf smallFormats 16 (fun _ => 0) 10 x.1 x.2 := by
  have hwhole : StringAt smallFormats 0 ([37, 100, 61] ++ [37, 120]) := by
    simp [smallFormats, memoryOf]
  have hleft : StringAt smallFormats 6 [37, 100, 61] := by simp [smallFormats, memoryOf]
  have hright : StringAt smallFormats 10 [37, 120] := by simp [smallFormats, memoryOf]
  exact vprintf_append hwhole hleft hright (by decide) (by simp) (by simp) (by simp)

/-! ### Text as a format -/

/-- A text with its per cent signs doubled. -/
def escaped (s : List UInt8) : List UInt8 := s.flatMap fun d => if d = 37 then [37, 37] else [d]

theorem parse_escaped (s : List UInt8) : parse (escaped s) = s.map .literal := by
  induction s with
  | nil => rfl
  | cons d s ih =>
      rw [escaped, List.flatMap_cons, ← escaped, List.map_cons, ← ih]
      by_cases h37 : d = 37
      · subst h37
        exact parse_convert 37 (escaped s)
      · rw [if_neg h37, List.singleton_append, parse_literal h37]

/-- **Any text can be printed.**  With its per cent signs doubled it is printed as it is, and no
argument is looked at. -/
theorem vprintf_escaped (hfmt : StringAt mem p (escaped s)) (hsize : p + (escaped s).length < size) :
    vprintf mem size buffer p args c = some (args, c.puts s) := by
  refine (vprintf_cases hfmt hsize _).2 ⟨s, ?_, rfl⟩
  rw [parse_escaped, prints_literals]
  exact ⟨rfl, rfl⟩

/-- The text `"5%d"`, with an argument that `%d` would have taken. -/
theorem vprintf_escaped_sample :
    vprintf (memoryOf [53, 37, 37, 100]) 16 (fun _ => 0) 0 [9] bootConsole =
      some ([9], bootConsole.puts [53, 37, 100]) :=
  vprintf_escaped (s := [53, 37, 100]) (by simp [memoryOf, escaped]) (by simp [escaped])

end Vprintf

end BenmoshOS.Klib
