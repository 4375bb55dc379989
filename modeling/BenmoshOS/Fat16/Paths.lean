import BenmoshOS.Fat16.Termination
import Mathlib.Data.List.TakeWhile

/-!
# FAT16: paths as lists of components

What a path means is said without an index loop: split it at the slashes, drop what is
empty and what is ".", look up all but the last component one directory at a time, and
the last one names the target.  `fat16_resolve_path` does the same, with two exceptions.

* It skips one leading slash.  Of two leading slashes the second ends an empty component,
  which is looked up in the root directory.
* It decides from the text that is left whether a component is the last one.  In front of
  a final "." it is not, so it must be a directory, and then there is no last component.

`Outcome` is the meaning of a list of components, `seen` the list that the loop works off,
and `resolve_splits_iff` says when the two readings of a path have the same outcome.
-/

namespace BenmoshOS

namespace Fat16

open Exec (Yields Halts)
open Fs

variable {g : Geometry} {d : Disk} {kmalloc : Nat → Option (Nat → UInt8)}

/-! ## The meaning of a list of components -/

/-- The components of a path between its slashes. -/
def segments (path : List UInt8) : List Name := (path.splitOn slash).filter (· ≠ [])

/-- The components of a path without the self-references. -/
def comps (path : List UInt8) : List Name := (segments path).filter (· ≠ [dot])

/-- All but the last component are looked up one directory at a time from `D` on; the last
one is the target, and must not be empty. -/
def Outcome (g : Geometry) (d : Disk) : Nat → List Name → Except Int (Nat × Name) → Prop
  | _, [], r => r = .error (-einval)
  | D, [c], r => r = if c = [] then .error (-einval) else .ok (D, c)
  | D, c :: c' :: cs, r => ∃ found, Looks g d D c found ∧
      match found with
      | none => r = .error (-enoent)
      | some f =>
          if f.entry.isDirectory then Outcome g d f.entry.startingCluster (c' :: cs) r
          else r = .error (-enotdir)

theorem Outcome.unique {cs : List Name} : ∀ {D : Nat} {r r' : Except Int (Nat × Name)},
    Outcome g d D cs r → Outcome g d D cs r' → r = r' := by
  induction cs with
  | nil => exact fun h h' => h.trans h'.symm
  | cons c cs ih =>
      intro D r r' h h'
      cases cs with
      | nil => exact h.trans h'.symm
      | cons c' cs =>
          obtain ⟨found, hlooks, hr⟩ := h
          obtain ⟨found', hlooks', hr'⟩ := h'
          obtain rfl := hlooks.unique hlooks'
          cases found with
          | none => exact hr.trans hr'.symm
          | some f =>
              dsimp only at hr hr'
              split at hr
              · rename_i hdir
                rw [if_pos hdir] at hr'
                exact ih hr hr'
              · rename_i hdir
                rw [if_neg hdir] at hr'
                exact hr.trans hr'.symm

/-- A list that goes on with an empty name resolves to an error; it is the error of the list
without it, unless that one resolves to a target. -/
theorem Outcome.append_empty {cs : List Name} (hne : cs ≠ []) (hcs : ∀ c ∈ cs, c ≠ []) :
    ∀ {D : Nat} {r : Except Int (Nat × Name)}, Outcome g d D (cs ++ [[]]) r →
      ∃ e, r = .error e ∧ (Outcome g d D cs r ∨ ∃ D' name, Outcome g d D cs (.ok (D', name))) := by
  induction cs with
  | nil => exact absurd rfl hne
  | cons c cs ih =>
      intro D r h
      cases cs with
      | nil =>
          have htarget : Outcome g d D [c] (.ok (D, c)) := (if_neg (hcs c (by simp))).symm
          obtain ⟨found, -, hr⟩ := h
          cases found with
          | none => exact ⟨_, hr, Or.inr ⟨D, c, htarget⟩⟩
          | some f =>
              dsimp only at hr
              split at hr
              · exact ⟨_, hr, Or.inr ⟨D, c, htarget⟩⟩
              · exact ⟨_, hr, Or.inr ⟨D, c, htarget⟩⟩
      | cons c' cs =>
          obtain ⟨found, hlooks, hr⟩ := h
          cases found with
          | none => exact ⟨_, hr, Or.inl ⟨none, hlooks, hr⟩⟩
          | some f =>
              dsimp only at hr
              split at hr
              · rename_i hdir
                obtain ⟨e, rfl, hcase⟩ :=
                  ih (List.cons_ne_nil _ _) (fun c hc => hcs c (List.mem_cons_of_mem _ hc)) hr
                refine ⟨e, rfl, hcase.imp (fun hres => ?_) fun ⟨D', name, hres⟩ => ⟨D', name, ?_⟩⟩
                · exact ⟨some f, hlooks, by dsimp only; rwa [if_pos hdir]⟩
                · exact ⟨some f, hlooks, by dsimp only; rwa [if_pos hdir]⟩
              · rename_i hdir
                exact ⟨_, hr, Or.inl ⟨some f, hlooks, by dsimp only; rwa [if_neg hdir]⟩⟩

/-! ## Splitting a path -/

theorem segments_nil : segments [] = [] := rfl

theorem segments_slash (path : List UInt8) : segments (slash :: path) = segments path := by
  rw [segments, List.splitOn_cons_eq_if_modifyHead, if_pos (by simp)]
  rfl

theorem segments_dropWhile (path : List UInt8) :
    segments (path.dropWhile (· = slash)) = segments path := by
  induction path with
  | nil => rfl
  | cons c path ih =>
      by_cases hc : c = slash
      · rw [List.dropWhile_cons_of_pos (by simpa using hc), ih, hc, segments_slash]
      · rw [List.dropWhile_cons_of_neg (by simpa using hc)]

/-- The text up to the first slash, and what follows it. -/
theorem segments_takeWhile {path : List UInt8} (h : path.takeWhile (· ≠ slash) ≠ []) :
    segments path = path.takeWhile (· ≠ slash) :: segments (path.dropWhile (· ≠ slash)) := by
  have hfirst : ∀ x ∈ path.takeWhile (· ≠ slash), (x == slash) = false := by
    intro x hx
    simpa using List.mem_takeWhile_imp hx
  conv_lhs => rw [← List.takeWhile_append_dropWhile (p := (· ≠ slash)) (l := path)]
  rcases hrest : path.dropWhile (· ≠ slash) with _ | ⟨c, rest⟩
  · rw [List.append_nil, segments, List.splitOn_eq_singleton_of_beq_eq_false hfirst, segments_nil]
    simpa using h
  · obtain rfl : c = slash := by
      have hhead := List.head?_dropWhile_not (· ≠ slash) path
      rw [hrest] at hhead
      simpa using hhead
    rw [segments_slash, segments, List.splitOn_append_cons_self,
      List.splitOn_eq_singleton_of_beq_eq_false hfirst, List.singleton_append,
      List.filter_cons_of_pos (by simpa using h)]
    rfl

/-- The path does not begin with a slash. -/
def Bare (path : List UInt8) : Prop := path.head? ≠ some slash

theorem bare_dropWhile (path : List UInt8) : Bare (path.dropWhile (· = slash)) := by
  intro hhead
  have := List.head?_dropWhile_not (· = slash) path
  rw [hhead] at this
  simp at this

theorem Bare.takeWhile_ne_nil {path : List UInt8} (h : Bare path) (hpath : path ≠ []) :
    path.takeWhile (· ≠ slash) ≠ [] := by
  cases path with
  | nil => exact absurd rfl hpath
  | cons c path =>
      have hc : c ≠ slash := fun hc => h (by rw [hc]; rfl)
      rw [List.takeWhile_cons_of_pos (by simpa using hc)]
      exact List.cons_ne_nil _ _

/-- The first component of a bare path is its first segment. -/
theorem Bare.segments_eq {path : List UInt8} (h : Bare path) (hpath : path ≠ [])
    (hlen : ∀ c ∈ segments path, c.length ≤ 255) :
    segments path = component path :: segments (restOf path) ∧ component path ≠ [] := by
  have hne := h.takeWhile_ne_nil hpath
  have hsplit := segments_takeWhile hne
  have hcomp : component path = path.takeWhile (· ≠ slash) := by
    refine List.take_of_length_le (hlen _ ?_)
    rw [hsplit]
    exact List.mem_cons_self
  have hdrop : path.drop (path.takeWhile (· ≠ slash)).length = path.dropWhile (· ≠ slash) := by
    have hleft : (path.takeWhile (· ≠ slash) ++ path.dropWhile (· ≠ slash)).drop
        (path.takeWhile (· ≠ slash)).length = path.dropWhile (· ≠ slash) := List.drop_left
    rwa [List.takeWhile_append_dropWhile] at hleft
  rw [restOf, segments_dropWhile, hcomp, hdrop]
  exact ⟨hsplit, hne⟩

theorem bare_restOf (path : List UInt8) : Bare (restOf path) := bare_dropWhile _

theorem Bare.segments_ne_nil {path : List UInt8} (h : Bare path) (hpath : path ≠ []) :
    segments path ≠ [] := by
  rw [segments_takeWhile (h.takeWhile_ne_nil hpath)]
  exact List.cons_ne_nil _ _

/-! ## What the loop works off -/

/-- The components that the loop of `fat16_resolve_path` works off: those that are no
self-references, and an empty one for a self-reference at the end. -/
def seen (ss : List Name) : List Name :=
  ss.filter (· ≠ [dot]) ++ if ss.getLast? = some [dot] then [[]] else []

theorem seen_cons {c : Name} {ss : List Name} (hc : c ≠ [dot]) : seen (c :: ss) = c :: seen ss := by
  have hlast : (c :: ss).getLast? = some [dot] ↔ ss.getLast? = some [dot] := by
    cases ss with
    | nil => simpa using hc
    | cons c' ss => rw [List.getLast?_cons_cons]
  rw [seen, seen, List.filter_cons_of_pos (by simpa using hc), List.cons_append]
  simp only [hlast]

theorem seen_dot {ss : List Name} (hss : ss ≠ []) : seen ([dot] :: ss) = seen ss := by
  cases ss with
  | nil => exact absurd rfl hss
  | cons c ss =>
      rw [seen, seen, List.filter_cons_of_neg (by simp), List.getLast?_cons_cons]

theorem seen_ne_nil {ss : List Name} (hss : ss ≠ []) : seen ss ≠ [] := by
  intro hnil
  obtain ⟨hfilter, hlast⟩ := List.append_eq_nil_iff.1 hnil
  obtain ⟨c, hc⟩ : ∃ c, ss.getLast? = some c := ⟨_, List.getLast?_eq_some_getLast hss⟩
  by_cases hdot : c = [dot]
  · rw [hdot] at hc
    rw [if_pos hc] at hlast
    exact absurd hlast (List.cons_ne_nil _ _)
  · have hmem : c ∈ ss.filter (· ≠ [dot]) :=
      List.mem_filter.2 ⟨List.mem_of_getLast? hc, by simpa using hdot⟩
    rw [hfilter] at hmem
    exact absurd hmem List.not_mem_nil

/-- A component in front of others: it is looked up, and the rest is resolved from there. -/
theorem outcome_inner {n D : Nat} {path : List UInt8} {p : Except Int (Nat × Name) × Io}
    (hpath : path ≠ []) (hdot : component path ≠ [dot]) (hrest : restOf path ≠ [])
    (hp : Yields ((resolveFrom (n + 1) D path).run g kmalloc (clean d)) p)
    (ih : ∀ {D' : Nat}, Yields ((resolveFrom n D' (restOf path)).run g kmalloc (clean d)) p →
      Outcome g d D' (seen (segments (restOf path))) p.1) :
    Outcome g d D (component path :: seen (segments (restOf path))) p.1 := by
  rw [resolveFrom_inner hpath hdot hrest, yields_bind (regular_findInDir _ _ _) ?_] at hp
  · obtain ⟨⟨found, io⟩, hq, hp⟩ := hp
    obtain ⟨hlooks, hio⟩ := (yields_findInDir _).1 hq
    obtain rfl : io = clean d := hio
    obtain ⟨c, cs, hseen⟩ := List.exists_cons_of_ne_nil
      (seen_ne_nil ((bare_restOf path).segments_ne_nil hrest))
    rw [hseen] at ih ⊢
    refine ⟨found, hlooks, ?_⟩
    cases found with
    | none =>
        obtain ⟨_, hp⟩ := hp
        rw [← Exec.ret.inj hp]
    | some found =>
        by_cases hdir : found.entry.isDirectory = true
        · simp only [hdir, if_true] at hp ⊢
          exact ih hp
        · simp only [hdir, Bool.false_eq_true, if_false] at hp ⊢
          obtain ⟨_, hp⟩ := hp
          rw [← Exec.ret.inj hp]
  · intro found
    cases found with
    | none => exact (total_pure _).regular
    | some found => exact regular_ite (regular_resolveFrom _ _ _) (total_pure _).regular

/-- **The loop**, from a component on, resolves the components it works off. -/
theorem Bare.outcome {n : Nat} : ∀ {D : Nat} {path : List UInt8}
    {p : Except Int (Nat × Name) × Io}, Bare path → (∀ c ∈ segments path, c.length ≤ 255) →
    path.length ≤ n → Yields ((resolveFrom n D path).run g kmalloc (clean d)) p →
    Outcome g d D (seen (segments path)) p.1 := by
  induction n with
  | zero =>
      intro D path p _ _ hn hp
      obtain rfl : path = [] := List.eq_nil_of_length_eq_zero (by omega)
      obtain ⟨_, hp⟩ := hp
      rw [← Exec.ret.inj hp]
      rfl
  | succ n ih =>
      intro D path p hbare hlen hn hp
      by_cases hpath : path = []
      · subst hpath
        rw [resolveFrom_nil] at hp
        obtain ⟨_, hp⟩ := hp
        rw [← Exec.ret.inj hp]
        rfl
      · obtain ⟨hsegs, hname⟩ := hbare.segments_eq hpath hlen
        have hn' : (restOf path).length ≤ n := by
          have := restOf_length_lt hpath
          omega
        have hlen' : ∀ c ∈ segments (restOf path), c.length ≤ 255 := fun c hc =>
          hlen c (by rw [hsegs]; exact List.mem_cons_of_mem _ hc)
        rw [hsegs]
        by_cases hdot : component path = [dot]
        · rw [resolveFrom_dot hpath hdot] at hp
          have hres := ih (bare_restOf path) hlen' hn' hp
          rw [hdot]
          by_cases hrest : segments (restOf path) = []
          · -- a self-reference at the end
            rw [hrest] at hres ⊢
            exact hres
          · rwa [seen_dot hrest]
        · rw [seen_cons hdot]
          by_cases hrest : restOf path = []
          · rw [resolveFrom_last hpath hdot hrest, if_neg hname,
              yields_bind (regular_findInDir _ _ _) fun _ => (total_pure _).regular] at hp
            obtain ⟨q, -, _, hp⟩ := hp
            rw [← Exec.ret.inj hp, hrest]
            exact (if_neg hname).symm
          · exact outcome_inner hpath hdot hrest hp fun hp' => ih (bare_restOf path) hlen' hn' hp'

/-! ## Whole paths -/

/-- Two leading slashes and a component behind them. -/
def DoubleSlash (path : List UInt8) : Prop :=
  (cString path).take 2 = [slash, slash] ∧ segments (cString path) ≠ []

instance (path : List UInt8) : Decidable (DoubleSlash path) := inferInstanceAs (Decidable (_ ∧ _))

/-- The last component is a self-reference. -/
def EndsInDot (path : List UInt8) : Prop := (segments (cString path)).getLast? = some [dot]

/-- The components that `fat16_resolve_path` works off. -/
def worked (path : List UInt8) : List Name :=
  if DoubleSlash path then [] :: seen (segments (cString path)) else seen (segments (cString path))

/-- `fat16_resolve_path` returns what its components resolve to. -/
def SplitsPath (g : Geometry) (kmalloc : Nat → Option (Nat → UInt8)) (d : Disk)
    (path : List UInt8) : Prop :=
  ∃ r, Outcome g d 0 (comps (cString path)) r ∧
    Yields ((resolvePath path).run g kmalloc (clean d)) (r, clean d)

theorem Bare.not_doubleSlash {path tail : List UInt8} (h : cString path = slash :: tail)
    (hbare : Bare tail) : ¬ DoubleSlash path := by
  rintro ⟨htake, -⟩
  rw [h] at htake
  cases tail with
  | nil => simp at htake
  | cons c tail =>
      refine hbare ?_
      rw [List.take_succ_cons, List.take_succ_cons] at htake
      simpa using htake

/-- **What `fat16_resolve_path` returns**, on any path: what the components it works off
resolve to. -/
theorem outcome_resolvePath {path : List UInt8} {p : Except Int (Nat × Name) × Io}
    (hlen : ∀ c ∈ segments (cString path), c.length ≤ 255)
    (hp : Yields ((resolvePath path).run g kmalloc (clean d)) p) :
    Outcome g d 0 (worked path) p.1 := by
  rw [resolvePath_eq] at hp
  unfold worked pathTail at *
  by_cases hhead : (cString path).head? = some slash
  · rw [if_pos hhead] at hp
    obtain ⟨tail, htail⟩ : ∃ tail, cString path = slash :: tail :=
      List.head?_eq_some_iff.1 hhead
    have hsegs : segments (cString path) = segments tail := by rw [htail, segments_slash]
    rw [hsegs] at hlen
    rw [htail, List.tail_cons] at hp
    by_cases hbare : Bare tail
    · rw [if_neg (hbare.not_doubleSlash htail), hsegs]
      exact hbare.outcome hlen (le_refl _) hp
    · -- the second slash ends an empty component
      obtain ⟨rest, rfl⟩ : ∃ rest, tail = slash :: rest :=
        List.head?_eq_some_iff.1 (not_not.1 hbare)
      have hcomp : component (slash :: rest) = [] := rfl
      have hrest : restOf (slash :: rest) = rest.dropWhile (· = slash) := by
        rw [restOf, hcomp]
        simp
      have hsegs' : segments (slash :: rest) = segments (restOf (slash :: rest)) := by
        rw [hrest, segments_dropWhile, segments_slash]
      have hpath : slash :: rest ≠ [] := List.cons_ne_nil _ _
      have hdot : component (slash :: rest) ≠ [dot] := by
        rw [hcomp]
        exact (List.cons_ne_nil _ _).symm
      by_cases hnil : restOf (slash :: rest) = []
      · have hnone : segments (cString path) = [] := by
          rw [hsegs, hsegs', hnil, segments_nil]
        rw [if_neg fun hds => hds.2 hnone, hnone]
        rw [List.length_cons, resolveFrom_last hpath hdot hnil, if_pos hcomp] at hp
        obtain ⟨_, hp⟩ := hp
        rw [← Exec.ret.inj hp]
        rfl
      · have hsome : segments (cString path) ≠ [] := by
          rw [hsegs, hsegs']
          exact (bare_restOf _).segments_ne_nil hnil
        have hdouble : DoubleSlash path := ⟨by rw [htail]; rfl, hsome⟩
        rw [if_pos hdouble, hsegs, hsegs', ← hcomp]
        rw [List.length_cons] at hp
        refine outcome_inner hpath hdot hnil hp fun hp' => ?_
        refine (bare_restOf _).outcome (by rwa [← hsegs']) ?_ hp'
        have := restOf_length_lt hpath
        rw [List.length_cons] at this
        omega
  · rw [if_neg hhead] at hp
    have hsingle : ¬ DoubleSlash path := by
      rintro ⟨htake, -⟩
      refine hhead ?_
      cases hc : cString path with
      | nil => rw [hc] at htake; simp at htake
      | cons c rest =>
          rw [hc] at htake
          rw [List.take_succ_cons] at htake
          rw [(List.cons.inj htake).1]
          rfl
    rw [if_neg hsingle]
    exact Bare.outcome hhead hlen (le_refl _) hp

theorem EndsInDot.seen_eq {path : List UInt8} (h : EndsInDot path) :
    seen (segments (cString path)) = comps (cString path) ++ [[]] := by
  unfold EndsInDot at h
  rw [seen, if_pos h, comps]

theorem seen_of_not_endsInDot {path : List UInt8} (h : ¬ EndsInDot path) :
    seen (segments (cString path)) = comps (cString path) := by
  unfold EndsInDot at h
  rw [seen, if_neg h, comps, List.append_nil]

theorem comps_ne_nil {path : List UInt8} {c : Name} (hc : c ∈ comps path) : c ≠ [] := by
  have hseg := (List.mem_filter.1 (List.mem_of_mem_filter hc)).2
  simpa using hseg

/-- The extra component of a path makes no difference: an empty one in front leads to the same
outcome, and with a self-reference at the end the path has no other component or fails before
the last one. -/
structure Harmless (g : Geometry) (d : Disk) (path : List UInt8) : Prop where
  slashes : DoubleSlash path → ∃ r, Outcome g d 0 (comps (cString path)) r ∧
    Outcome g d 0 ([] :: seen (segments (cString path))) r
  dot : ¬ DoubleSlash path → EndsInDot path → comps (cString path) = [] ∨
    ∀ D name, ¬ Outcome g d 0 (comps (cString path)) (.ok (D, name))

/-- **When resolution agrees with splitting.**  For every volume and every path whose components
have at most 255 characters: `fat16_resolve_path` returns what the components of the path resolve
to, if and only if the lookups on its way end and the extra component that it works off for two
leading slashes or for a self-reference at the end makes no difference. -/
theorem resolve_splits_iff {path : List UInt8}
    (hlen : ∀ c ∈ segments (cString path), c.length ≤ 255) :
    SplitsPath g kmalloc d path ↔ PathEnds g d path ∧ Harmless g d path := by
  constructor
  · rintro ⟨r, hspec, hyields⟩
    have hcode : Outcome g d 0 (worked path) r := outcome_resolvePath hlen hyields
    refine ⟨(halts_resolvePath kmalloc path).1 ⟨_, hyields⟩, fun hdouble => ?_,
      fun hsingle hdot => ?_⟩
    · rw [worked, if_pos hdouble] at hcode
      exact ⟨r, hspec, hcode⟩
    · rw [worked, if_neg hsingle, hdot.seen_eq] at hcode
      by_cases hnil : comps (cString path) = []
      · exact Or.inl hnil
      · obtain ⟨e, rfl, -⟩ := hcode.append_empty hnil fun c hc => comps_ne_nil hc
        refine Or.inr fun D name hok => ?_
        exact absurd (hspec.unique hok) (by simp)
  · rintro ⟨hends, hharm⟩
    obtain ⟨⟨r, io⟩, hyields⟩ := (halts_resolvePath kmalloc path).2 hends
    have hcode : Outcome g d 0 (worked path) r := outcome_resolvePath hlen hyields
    obtain rfl : io = clean d := (yields_resolvePath hyields).1
    refine ⟨r, ?_, hyields⟩
    by_cases hdouble : DoubleSlash path
    · obtain ⟨r', hspec, hcode'⟩ := hharm.slashes hdouble
      rw [worked, if_pos hdouble] at hcode
      rwa [hcode.unique hcode']
    · rw [worked, if_neg hdouble] at hcode
      by_cases hdot : EndsInDot path
      · rw [hdot.seen_eq] at hcode
        rcases hharm.dot hdouble hdot with hnil | hfails
        · rw [hnil] at hcode ⊢
          exact hcode
        · by_cases hnil : comps (cString path) = []
          · rw [hnil] at hcode ⊢
            exact hcode
          · obtain ⟨-, -, hsame | ⟨D, name, hok⟩⟩ :=
              hcode.append_empty hnil fun c hc => comps_ne_nil hc
            · exact hsame
            · exact absurd hok (hfails D name)
      · rwa [seen_of_not_endsInDot hdot] at hcode

/-- A volume on which nothing has been created. -/
def blankDisk : Disk := fun _ _ => 0

theorem looks_blankDisk (name : Name) : Looks tinyGeometry blankDisk 0 name none :=
  ⟨(eok, FindCtx.zero), ⟨0, rfl⟩, rfl⟩

/-- The file `a` of the root, written with one slash. -/
theorem resolve_splits_iff_file :
    SplitsPath tinyGeometry (fun _ => none) blankDisk [slash, 0x61] := by
  have hsegs : segments (cString [slash, 0x61]) = [[0x61]] := by decide
  refine (resolve_splits_iff ?_).2 ⟨fun D name last hasks => ?_, fun hdouble => ?_, fun _ hdot => ?_⟩
  · rw [hsegs]
    decide
  · -- there is one component, and it is asked for in the root
    have hrest : restOf [0x61] = [] := by decide
    have htail : pathTail [slash, 0x61] = [0x61] := by decide
    rw [htail] at hasks
    cases hasks with
    | inner _ _ hne => exact absurd hrest hne
    | last => exact Or.inl rfl
    | dot _ hdot => exact absurd hdot (by decide)
    | down _ _ hne => exact absurd hrest hne
  · exact absurd hdouble.1 (by decide)
  · rw [EndsInDot, hsegs] at hdot
    exact absurd hdot (by decide)

/-- A path that starts with a lookup on the empty volume does not lead to a file of its root. -/
theorem not_splitsPath_blankDisk {path : List UInt8} {c c' : Name} {cs : List Name}
    (hlen : ∀ c ∈ segments (cString path), c.length ≤ 255) (hworked : worked path = c :: c' :: cs)
    (hcomps : comps (cString path) = [[0x61]]) :
    ¬ SplitsPath tinyGeometry (fun _ => none) blankDisk path := by
  rintro ⟨r, hspec, hyields⟩
  have hcode : Outcome tinyGeometry blankDisk 0 (worked path) r := outcome_resolvePath hlen hyields
  rw [hworked] at hcode
  obtain ⟨found, hlooks, hr⟩ := hcode
  obtain rfl := (looks_blankDisk c).unique hlooks
  rw [hcomps] at hspec
  exact absurd (hspec.symm.trans hr) (by simp)

/-- **Redundant text in a path that matters.**  On an empty volume, neither `//a` nor `a/.` leads
to the file `a` of the root. -/
theorem resolve_reads_redundant_text :
    comps (cString [slash, slash, 0x61]) = [[0x61]] ∧ comps (cString [0x61, slash, dot]) = [[0x61]] ∧
      ¬ SplitsPath tinyGeometry (fun _ => none) blankDisk [slash, slash, 0x61] ∧
      ¬ SplitsPath tinyGeometry (fun _ => none) blankDisk [0x61, slash, dot] := by
  have hfront : worked [slash, slash, 0x61] = [[], [0x61]] := by decide
  have hend : worked [0x61, slash, dot] = [[0x61], []] := by decide
  exact ⟨by decide, by decide, not_splitsPath_blankDisk (by decide) hfront (by decide),
    not_splitsPath_blankDisk (by decide) hend (by decide)⟩

end Fat16

end BenmoshOS
