import BenmoshOS.Fat16.Names
import BenmoshOS.Fat16.Walks

/-!
# FAT16: the case of letters in names and paths

Both matchers of a lookup fold the case of ASCII letters, each in its own loop.  So the
visitor of a lookup is the same function for two names that differ in case only
(`findFileCallback_congr`), and the lookup is the same program, on every disk and whatever
accesses fail.

A path in lower case has the components of the path in lower case, so the resolution asks
for the same names up to case, and goes the same way.
-/

namespace BenmoshOS

namespace Fat16

variable {n n' : Name} {path path' : List UInt8}

/-! ## Lookups -/

theorem sameName_map_lower (n : Name) : SameName (n.map lower) n := by
  show (n.map lower).map lower = n.map lower
  rw [List.map_map]
  exact List.map_congr_left fun c _ => lower_lower c

theorem matchSfn_congr (h : SameName n n') (entry : Record) :
    matchSfn entry n = matchSfn entry n' := matchFrom_congr h 0

/-- The two matchers do not see the case of letters, so the visitor does not. -/
theorem findFileCallback_congr (h : SameName n n') : findFileCallback n = findFileCallback n' := by
  funext sector slotIdx entry ctx
  unfold findFileCallback
  rw [matchFrom_congr h 0, matchSfn_congr h entry]

/-- **Lookup ignores the case of letters.** -/
theorem findInDir_congr (h : SameName n n') (site : Site) (D : Nat) :
    findInDir site D n = findInDir site D n' := by
  unfold findInDir
  rw [findFileCallback_congr h]

/-! ## Paths in lower case -/

theorem lower_eq_slash (c : UInt8) : lower c = slash ↔ c = slash := by
  unfold lower slash
  grind

theorem lower_eq_dot (c : UInt8) : lower c = dot ↔ c = dot := by
  unfold lower dot
  grind

theorem takeWhile_slash_map_lower (path : List UInt8) :
    (path.map lower).takeWhile (· ≠ slash) = (path.takeWhile (· ≠ slash)).map lower := by
  rw [List.takeWhile_map]
  congr 2
  funext c
  simp [lower_eq_slash]

theorem dropWhile_slash_map_lower (path : List UInt8) :
    (path.map lower).dropWhile (· = slash) = (path.dropWhile (· = slash)).map lower := by
  rw [List.dropWhile_map]
  congr 2
  funext c
  simp [lower_eq_slash]

@[simp] theorem component_map_lower (path : List UInt8) :
    component (path.map lower) = (component path).map lower := by
  rw [component, takeWhile_slash_map_lower, ← List.map_take]
  rfl

@[simp] theorem restOf_map_lower (path : List UInt8) :
    restOf (path.map lower) = (restOf path).map lower := by
  rw [restOf, component_map_lower, List.length_map, ← List.map_drop, dropWhile_slash_map_lower]
  rfl

theorem map_lower_eq_dot (n : Name) : n.map lower = [dot] ↔ n = [dot] := by
  simp [List.map_eq_singleton_iff, lower_eq_dot]

/-! ## Resolution -/

/-- What a caller of `fat16_resolve_path` sees besides the last component: the result code,
and the parent cluster where there is one. -/
def reported : Except Int (Nat × Name) → Int × Option Nat
  | .ok (parent, _) => (eok, some parent)
  | .error e => (e, none)

/-- From a lookup on two programs go on alike. -/
theorem map_bind_congr {α β γ : Type} {x : Fs α} {f f' : α → Fs β} {r : β → γ}
    (h : ∀ a, r <$> f a = r <$> f' a) : r <$> (x >>= f) = r <$> (x >>= f') := by
  funext env io
  show ((x env io >>= fun p => f p.1 env p.2) >>= fun p => Exec.ret (r p.1, p.2)) =
    ((x env io >>= fun p => f' p.1 env p.2) >>= fun p => Exec.ret (r p.1, p.2))
  cases x env io with
  | panic p => rfl
  | spin => rfl
  | ret p => exact congrFun (congrFun (h p.1) env) p.2

/-- The loop of `fat16_resolve_path` on a path in lower case. -/
theorem reported_resolveFrom_lower {m : Nat} : ∀ {D : Nat} {path : List UInt8},
    reported <$> resolveFrom m D (path.map lower) = reported <$> resolveFrom m D path := by
  induction m with
  | zero => intro D path; rfl
  | succ m ih =>
      intro D path
      by_cases hpath : path = []
      · subst hpath
        rfl
      · have hpath' : path.map lower ≠ [] := by simpa using hpath
        by_cases hdot : component path = [dot]
        · have hdot' : component (path.map lower) = [dot] := by
            rw [component_map_lower, hdot]
            rfl
          rw [resolveFrom_dot hpath hdot, resolveFrom_dot hpath' hdot', restOf_map_lower]
          exact ih
        · have hdot' : component (path.map lower) ≠ [dot] := by
            rw [component_map_lower]
            exact mt (map_lower_eq_dot _).1 hdot
          by_cases hrest : restOf path = []
          · have hrest' : restOf (path.map lower) = [] := by rw [restOf_map_lower, hrest]; rfl
            rw [resolveFrom_last hpath hdot hrest, resolveFrom_last hpath' hdot' hrest',
              component_map_lower, findInDir_congr (sameName_map_lower _)]
            by_cases hname : component path = []
            · rw [hname]
              rfl
            · rw [if_neg hname, if_neg (by simpa using hname)]
              exact map_bind_congr fun _ => rfl
          · have hrest' : restOf (path.map lower) ≠ [] := by
              rw [restOf_map_lower]
              simpa using hrest
            rw [resolveFrom_inner hpath hdot hrest, resolveFrom_inner hpath' hdot' hrest',
              component_map_lower, restOf_map_lower, findInDir_congr (sameName_map_lower _)]
            apply map_bind_congr
            intro found
            cases found with
            | none => rfl
            | some found =>
                by_cases hdir : found.entry.isDirectory = true
                · simp only [hdir, if_true]
                  exact ih
                · simp only [hdir, Bool.false_eq_true, if_false]

theorem reported_resolvePath_lower (path : List UInt8) :
    reported <$> resolvePath (path.map lower) = reported <$> resolvePath path := by
  unfold resolvePath
  rw [cString_map_lower]
  cases cString path with
  | nil => rfl
  | cons c cs =>
      have hhead : ((c :: cs).map lower).head? = some slash ↔ (c :: cs).head? = some slash := by
        simp [lower_eq_slash]
      have hne : (c :: cs).map lower ≠ [] := by simp
      simp only [if_neg hne, if_neg (List.cons_ne_nil c cs)]
      by_cases hc : (c :: cs).head? = some slash
      · rw [if_pos hc, if_pos (hhead.2 hc), ← List.map_tail, List.length_map]
        exact reported_resolveFrom_lower
      · rw [if_neg hc, if_neg (mt hhead.1 hc), List.length_map]
        exact reported_resolveFrom_lower

/-- **Lookup ignores ASCII case.**  For names that differ in the case of letters only
`fat16_find_in_dir` is the same program: it finds the same entry, in the same sector and
slot, or does not find any, on every disk and whatever accesses fail.  So two paths that
differ in the case of letters only resolve to the same result code and parent cluster. -/
theorem lookup_ignores_case (hname : SameName n n') (hpath : SameName path path') :
    (∀ site D, findInDir site D n = findInDir site D n') ∧
      reported <$> resolvePath path = reported <$> resolvePath path' := by
  refine ⟨findInDir_congr hname, ?_⟩
  calc reported <$> resolvePath path
      = reported <$> resolvePath (path.map lower) := (reported_resolvePath_lower path).symm
    _ = reported <$> resolvePath (path'.map lower) := by rw [show path.map lower = _ from hpath]
    _ = reported <$> resolvePath path' := reported_resolvePath_lower path'

/-- "README" and "ReadMe", "/Docs/a" and "/DOCS/A". -/
theorem lookup_ignores_case_readme :
    (∀ site D, findInDir site D [0x52, 0x45, 0x41, 0x44, 0x4D, 0x45] =
        findInDir site D [0x52, 0x65, 0x61, 0x64, 0x4D, 0x65]) ∧
      reported <$> resolvePath [0x2F, 0x44, 0x6F, 0x63, 0x73, 0x2F, 0x61] =
        reported <$> resolvePath [0x2F, 0x44, 0x4F, 0x43, 0x53, 0x2F, 0x41] :=
  lookup_ignores_case (by unfold SameName; decide) (by unfold SameName; decide)

end Fat16

end BenmoshOS
