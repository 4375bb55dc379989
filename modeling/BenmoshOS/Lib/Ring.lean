import Mathlib.Tactic

/-!
# Circular doubly linked lists

A memory of link pairs, `Links α = α → Link α`, holds a circular list with head
`h` and members `xs` when following `next` from `h` visits the members in order
and comes back to `h`, and `prev` runs the other way round.  Both directions are
stated at once, as equations between lists: `next` maps `h :: xs` to `xs ++ [h]`,
and `prev` maps it back.

* `Ring.congr` — a ring only depends on the links of its own nodes;
* `Ring.insertBetween` — splicing a node in between two neighbours;
* `Ring.remove` — splicing one out.
-/

namespace BenmoshOS

/-- A pair of links. -/
structure Link (α : Type) where
  next : α
  prev : α
  deriving DecidableEq, Repr

/-- A memory of links, indexed by the nodes. -/
abbrev Links (α : Type) := α → Link α

variable {α : Type}

/-- `Ring m h xs`: the circular list with head `h` has the members `xs`. -/
structure Ring (m : Links α) (h : α) (xs : List α) : Prop where
  nodup : (h :: xs).Nodup
  next_eq : (h :: xs).map (fun a => (m a).next) = xs ++ [h]
  prev_eq : (xs ++ [h]).map (fun a => (m a).prev) = h :: xs

namespace Ring

variable {m m' : Links α} {h : α} {xs : List α}

/-- A ring only depends on the links of its own nodes. -/
theorem congr (hr : Ring m h xs) (hm : ∀ a ∈ h :: xs, m' a = m a) : Ring m' h xs := by
  refine ⟨hr.nodup, ?_, ?_⟩
  · rw [← hr.next_eq]
    exact List.map_congr_left fun a ha => by rw [hm a ha]
  · rw [← hr.prev_eq]
    refine List.map_congr_left fun a ha => ?_
    rw [hm a (by simpa [or_comm] using ha)]

/-- The node behind the head of a list. -/
theorem head_next (hr : Ring m h xs) : (xs ++ [h]).head? = some (m h).next := by
  rw [← hr.next_eq]
  rfl

/-- The links at a member, from its neighbours in the list. -/
theorem links_at {u v : List α} {e : α} (hr : Ring m h (u ++ e :: v)) :
    ∃ s p q t, h :: u = s ++ [p] ∧ v ++ [h] = q :: t ∧ (m p).next = e ∧ (m e).prev = p ∧
      (m e).next = q ∧ (m q).prev = e ∧ s.map (fun a => (m a).next) = u ∧
      v.map (fun a => (m a).next) = t ∧ u.map (fun a => (m a).prev) = s ∧
      t.map (fun a => (m a).prev) = v := by
  obtain ⟨s, p, hsp⟩ : ∃ s p, h :: u = s ++ [p] :=
    ⟨(h :: u).dropLast, (h :: u).getLast (by simp), (List.dropLast_append_getLast _).symm⟩
  obtain ⟨q, t, hqt⟩ : ∃ q t, v ++ [h] = q :: t := by
    cases v with
    | nil => exact ⟨h, [], rfl⟩
    | cons c v => exact ⟨c, v ++ [h], rfl⟩
  have hnext := hr.next_eq
  have hprev := hr.prev_eq
  have hlen := congrArg List.length hsp
  have hlen' := congrArg List.length hqt
  simp only [List.length_cons, List.length_append, List.length_nil] at hlen hlen'
  have hfrom : h :: (u ++ e :: v) = s ++ p :: e :: v := by
    rw [← List.cons_append, hsp, List.append_assoc, List.singleton_append]
  have hto : (u ++ e :: v) ++ [h] = u ++ e :: q :: t := by
    rw [List.append_assoc, List.cons_append, hqt]
  rw [hfrom, hto, List.map_append] at hnext hprev
  obtain ⟨h1, h2⟩ := List.append_inj hnext (by simp; omega)
  obtain ⟨h3, h4⟩ := List.append_inj hprev (by simp; omega)
  simp only [List.map_cons, List.cons.injEq] at h2 h4
  exact ⟨s, p, q, t, hsp, hqt, h2.1, h4.1, h2.2.1, h4.2.1, h1, h2.2.2, h3, h4.2.2⟩

/-- The node behind a member. -/
theorem member_next {u v : List α} {e : α} (hr : Ring m h (u ++ e :: v)) :
    (v ++ [h]).head? = some (m e).next := by
  obtain ⟨s, p, q, t, -, hqt, -, -, hq, -⟩ := hr.links_at
  rw [hqt, hq]
  rfl

/-- Splicing a node out: its two neighbours are joined, and every other link of
the list is kept. -/
theorem remove {u v : List α} {e p q : α} (hr : Ring m h (u ++ e :: v))
    (hp : (m e).prev = p) (hq : (m e).next = q)
    (hpn : (m' p).next = q) (hqp : (m' q).prev = p)
    (hnext : ∀ a, a ≠ p → a ≠ e → (m' a).next = (m a).next)
    (hprev : ∀ a, a ≠ q → a ≠ e → (m' a).prev = (m a).prev) : Ring m' h (u ++ v) := by
  obtain ⟨s, p', q', t, hsp, hqt, -, hp', hq', -, hs, hv, hu, ht⟩ := hr.links_at
  obtain rfl : p = p' := hp.symm.trans hp'
  obtain rfl : q = q' := hq.symm.trans hq'
  have hnd := hr.nodup
  rw [← List.cons_append, List.nodup_append] at hnd
  obtain ⟨hnd1, hnd2, hdis⟩ := hnd
  rw [List.nodup_cons] at hnd2
  have heu : e ∉ h :: u := fun hmem => hdis e hmem e (by simp) rfl
  have hpv : p ∉ v := fun hmem => hdis p (by rw [hsp]; simp) p (by simp [hmem]) rfl
  have hps : p ∉ s := by
    rw [hsp, List.nodup_append] at hnd1
    exact fun hmem => hnd1.2.2 p hmem p (by simp) rfl
  have hvh : (v ++ [h]).Nodup := by
    rw [List.nodup_append]
    exact ⟨hnd2.2, by simp, fun a ha b hb hab =>
      hdis h (by simp) a (by simp [ha]) (by simp at hb; rw [hab, hb])⟩
  have hqt' : q ∉ t := by
    rw [hqt, List.nodup_cons] at hvh
    exact hvh.1
  have hqu : q ∉ u := by
    have hqmem : q ∈ v ++ [h] := by rw [hqt]; simp
    rcases List.mem_append.1 hqmem with hqv | hqh
    · exact fun hmem => hdis q (by simp [hmem]) q (by simp [hqv]) rfl
    · rw [List.nodup_cons] at hnd1
      rw [List.mem_singleton] at hqh
      exact hqh ▸ hnd1.1
  have hes : e ∉ s := fun hmem => heu (by rw [hsp]; simp [hmem])
  have het : e ∉ t := fun hmem => by
    have hmem' : e ∈ v ++ [h] := by rw [hqt]; simp [hmem]
    rcases List.mem_append.1 hmem' with hev | heh
    · exact hnd2.1 hev
    · exact heu (by rw [List.mem_singleton] at heh; simp [heh])
  refine ⟨?_, ?_, ?_⟩
  · refine hr.nodup.sublist (List.Sublist.cons_cons h ?_)
    exact List.Sublist.append_left (List.sublist_cons_self e v) u
  · have hfrom : h :: (u ++ v) = s ++ p :: v := by
      rw [← List.cons_append, hsp, List.append_assoc, List.singleton_append]
    rw [hfrom, List.append_assoc, hqt, List.map_append, List.map_cons, hpn, ← hs, ← hv]
    congr 1
    · exact List.map_congr_left fun a ha =>
        hnext a (fun h' => hps (h' ▸ ha)) (fun h' => hes (h' ▸ ha))
    · congr 1
      exact List.map_congr_left fun a ha =>
        hnext a (fun h' => hpv (h' ▸ ha)) (fun h' => hnd2.1 (h' ▸ ha))
  · have hfrom : h :: (u ++ v) = s ++ p :: v := by
      rw [← List.cons_append, hsp, List.append_assoc, List.singleton_append]
    rw [hfrom, List.append_assoc, hqt, List.map_append, List.map_cons, hqp, ← hu, ← ht]
    congr 1
    · exact List.map_congr_left fun a ha =>
        hprev a (fun h' => hqu (h' ▸ ha)) (fun h' => heu (h' ▸ (by simp [ha])))
    · congr 1
      exact List.map_congr_left fun a ha =>
        hprev a (fun h' => hqt' (h' ▸ ha)) (fun h' => het (h' ▸ ha))

/-- The two nodes at a cut of the list, from the links. -/
theorem links_between {u v : List α} (hr : Ring m h (u ++ v)) :
    ∃ s p q t, h :: u = s ++ [p] ∧ v ++ [h] = q :: t ∧ (m p).next = q ∧ (m q).prev = p ∧
      s.map (fun a => (m a).next) = u ∧ v.map (fun a => (m a).next) = t ∧
      u.map (fun a => (m a).prev) = s ∧ t.map (fun a => (m a).prev) = v := by
  obtain ⟨s, p, hsp⟩ : ∃ s p, h :: u = s ++ [p] :=
    ⟨(h :: u).dropLast, (h :: u).getLast (by simp), (List.dropLast_append_getLast _).symm⟩
  obtain ⟨q, t, hqt⟩ : ∃ q t, v ++ [h] = q :: t := by
    cases v with
    | nil => exact ⟨h, [], rfl⟩
    | cons c v => exact ⟨c, v ++ [h], rfl⟩
  have hnext := hr.next_eq
  have hprev := hr.prev_eq
  have hlen := congrArg List.length hsp
  have hlen' := congrArg List.length hqt
  simp only [List.length_cons, List.length_append, List.length_nil] at hlen hlen'
  have hfrom : h :: (u ++ v) = s ++ p :: v := by
    rw [← List.cons_append, hsp, List.append_assoc, List.singleton_append]
  have hto : (u ++ v) ++ [h] = u ++ q :: t := by
    rw [List.append_assoc, hqt]
  rw [hfrom, hto, List.map_append] at hnext hprev
  obtain ⟨h1, h2⟩ := List.append_inj hnext (by simp; omega)
  obtain ⟨h3, h4⟩ := List.append_inj hprev (by simp; omega)
  simp only [List.map_cons, List.cons.injEq] at h2 h4
  exact ⟨s, p, q, t, hsp, hqt, h2.1, h4.1, h1, h2.2, h3, h4.2⟩

/-- Splicing a new node in between two neighbours. -/
theorem insertBetween {u v : List α} {n p q : α} (hr : Ring m h (u ++ v))
    (hn : n ∉ h :: (u ++ v)) (hp : (h :: u).getLast? = some p)
    (hq : (v ++ [h]).head? = some q) (hpn : (m' p).next = n) (hnq : (m' n).next = q)
    (hnp : (m' n).prev = p) (hqn : (m' q).prev = n)
    (hnext : ∀ a, a ≠ p → a ≠ n → (m' a).next = (m a).next)
    (hprev : ∀ a, a ≠ q → a ≠ n → (m' a).prev = (m a).prev) : Ring m' h (u ++ n :: v) := by
  obtain ⟨s, p', q', t, hsp, hqt, -, -, hs, hv, hu, ht⟩ := hr.links_between
  obtain rfl : p' = p := by rw [hsp] at hp; simpa using hp
  obtain rfl : q' = q := by rw [hqt] at hq; simpa using hq
  have hnd := hr.nodup
  rw [← List.cons_append, List.nodup_append] at hnd
  obtain ⟨hnd1, hnd2, hdis⟩ := hnd
  rw [← List.cons_append, List.mem_append, not_or] at hn
  have hps : p' ∉ s := by
    rw [hsp, List.nodup_append] at hnd1
    exact fun hmem => hnd1.2.2 p' hmem p' (by simp) rfl
  have hpv : p' ∉ v := fun hmem => hdis p' (by rw [hsp]; simp) p' hmem rfl
  have hvh : (v ++ [h]).Nodup := by
    rw [List.nodup_append]
    exact ⟨hnd2, by simp, fun a ha b hb hab =>
      hdis h (by simp) a ha (by simp at hb; rw [hab, hb])⟩
  have hqt' : q' ∉ t := by
    rw [hqt, List.nodup_cons] at hvh
    exact hvh.1
  have hqu : q' ∉ u := by
    have hqmem : q' ∈ v ++ [h] := by rw [hqt]; simp
    rcases List.mem_append.1 hqmem with hqv | hqh
    · exact fun hmem => hdis q' (by simp [hmem]) q' hqv rfl
    · rw [List.nodup_cons] at hnd1
      rw [List.mem_singleton] at hqh
      exact hqh ▸ hnd1.1
  have hns : n ∉ s := fun hmem => hn.1 (by rw [hsp]; simp [hmem])
  have hnt : n ∉ t := fun hmem => by
    have hmem' : n ∈ v ++ [h] := by rw [hqt]; simp [hmem]
    rcases List.mem_append.1 hmem' with hnv | hnh
    · exact hn.2 hnv
    · rw [List.mem_singleton] at hnh
      exact hn.1 (by simp [hnh])
  have hnu : n ∉ u := fun hmem => hn.1 (by simp [hmem])
  have hfrom : h :: (u ++ n :: v) = s ++ p' :: n :: v := by
    rw [← List.cons_append, hsp, List.append_assoc, List.singleton_append]
  have hto : (u ++ n :: v) ++ [h] = u ++ n :: q' :: t := by
    rw [List.append_assoc, List.cons_append, hqt]
  refine ⟨?_, ?_, ?_⟩
  · rw [← List.cons_append, List.nodup_append]
    refine ⟨hnd1, List.nodup_cons.2 ⟨hn.2, hnd2⟩, fun a ha b hb => ?_⟩
    rcases List.mem_cons.1 hb with rfl | hb
    · exact fun hab => hn.1 (hab ▸ ha)
    · exact hdis a ha b hb
  · rw [hfrom, hto, List.map_append, List.map_cons, List.map_cons, hpn, hnq, ← hs, ← hv]
    congr 1
    · exact List.map_congr_left fun a ha =>
        hnext a (fun h' => hps (h' ▸ ha)) (fun h' => hns (h' ▸ ha))
    · congr 2
      exact List.map_congr_left fun a ha =>
        hnext a (fun h' => hpv (h' ▸ ha)) (fun h' => hn.2 (h' ▸ ha))
  · rw [hfrom, hto, List.map_append, List.map_cons, List.map_cons, hnp, hqn, ← hu, ← ht]
    congr 1
    · exact List.map_congr_left fun a ha =>
        hprev a (fun h' => hqu (h' ▸ ha)) (fun h' => hnu (h' ▸ ha))
    · congr 2
      exact List.map_congr_left fun a ha =>
        hprev a (fun h' => hqt' (h' ▸ ha)) (fun h' => hnt (h' ▸ ha))

end Ring

end BenmoshOS
