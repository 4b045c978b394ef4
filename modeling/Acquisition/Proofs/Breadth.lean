import Acquisition.Proofs.Identity
import Mathlib.Algebra.BigOperators.Group.List.Basic
import Mathlib.Algebra.Order.BigOperators.Group.Finset
import Mathlib.Tactic.Linarith

/-!
# The breadth of a constraint

A disjunction may have disjunctions as members. Its breadth counts what it comes down to when
these are opened as well, so it adds up over the members, and it goes down when a member
goes. The count of the members alone would not do: a disjunction that is left with one member
becomes that member, which may have any number of members itself.
-/
namespace Acquisition

open Checked IndexSet

namespace Term

mutual

/-- The count of the constraints that a disjunction comes down to, when disjunctions among
its members are opened. -/
def breadth : Term → Nat
  | atomic _ => 1
  | any ts => max 1 (breadths ts)
  | all _ => 1

def breadths : List Term → Nat
  | [] => 0
  | t :: ts => t.breadth + breadths ts

end

theorem breadth_pos (t : Term) : 0 < t.breadth := by
  cases t with
  | atomic p => simp [breadth]
  | any ts =>
    rw [breadth]
    omega
  | all ts => simp [breadth]

theorem breadths_eq (ts : List Term) : breadths ts = (ts.map breadth).sum := by
  induction ts with
  | nil => rfl
  | cons t ts ih => rw [breadths, List.map_cons, List.sum_cons, ih]

end Term

namespace Arena

variable {A B : Arena} {c : ConstraintId} {ms : IndexSet}

/-- The breadth of a constraint of the arena. -/
def breadth (A : Arena) (c : ConstraintId) : Nat :=
  match A.places[c]? with
  | some r => r.term.breadth
  | none => 0

/-- The count of the members of a disjunction. -/
def width (A : Arena) (c : ConstraintId) : Nat :=
  match A.disjuncts? c with
  | .ok (some ms) => ms.size
  | _ => 0

/-- The breadths of some constraints added up. -/
def spread (A : Arena) (ms : IndexSet) : Nat := ∑ c ∈ ms.toFinset, A.breadth c

/-- What a simplification of a constraint brings down: first of all its breadth, then its
width, which is never more than its breadth. -/
def bulk (A : Arena) (c : ConstraintId) : Nat := A.breadth c * A.breadth c + A.width c

theorem breadth_of_place {r : Registration} (h : A.places[c]? = some r) :
    A.breadth c = r.term.breadth := by
  rw [breadth, h]

theorem entry_of_place {r : Registration} (h : A.places[c]? = some r) :
    A.entry c = .ok r.entry := by
  rw [entry, place_eq_ok.2 h]
  rfl

theorem width_of_disjuncts (h : A.disjuncts? c = .ok (some ms)) : A.width c = ms.size := by
  rw [width, h]

theorem width_of_plain (h : A.disjuncts? c = .ok none) : A.width c = 0 := by
  rw [width, h]

theorem Registered.breadth_pos (h : A.Registered c) : 0 < A.breadth c := by
  rcases h with ⟨r, hr⟩
  rw [breadth_of_place hr]
  exact r.term.breadth_pos

theorem Registered.exists_disjuncts (h : A.Registered c) : ∃ ms?, A.disjuncts? c = .ok ms? := by
  rcases h with ⟨r, hr⟩
  rw [disjuncts?, entry_of_place hr]
  cases r.entry with
  | atomic p => exact ⟨none, rfl⟩
  | disjunction ms => exact ⟨some ms, rfl⟩
  | conjunction ms => exact ⟨none, rfl⟩

theorem Extends.disjuncts_eq (h : A.Extends B) (hc : A.Registered c) :
    B.disjuncts? c = A.disjuncts? c := by
  rcases hc with ⟨r, hr⟩
  rw [disjuncts?, disjuncts?, entry, entry, place_eq_ok.2 hr, place_eq_ok.2 (h c r hr)]

theorem Extends.breadth (h : A.Extends B) (hc : A.Registered c) : B.breadth c = A.breadth c := by
  rcases hc with ⟨r, hr⟩
  rw [breadth_of_place hr, breadth_of_place (h c r hr)]

theorem Extends.bulk (h : A.Extends B) (hc : A.Registered c) : B.bulk c = A.bulk c := by
  rw [Arena.bulk, Arena.bulk, h.breadth hc, width, width, h.disjuncts_eq hc]

theorem Extends.spread (h : A.Extends B) (hms : ∀ d ∈ ms, A.Registered d) :
    B.spread ms = A.spread ms :=
  Finset.sum_congr rfl fun d hd => h.breadth (hms d (mem_toFinset.1 hd))

theorem spread_singleton (A : Arena) (c : ConstraintId) :
    A.spread (.singleton c) = A.breadth c := by
  have hset : toFinset (.singleton c) = {c} := by
    ext d
    rw [mem_toFinset, mem_singleton, Finset.mem_singleton]
  rw [spread, hset, Finset.sum_singleton]

theorem size_le_spread (hms : ∀ d ∈ ms, A.Registered d) : ms.size ≤ A.spread ms := by
  have hcount := Finset.card_nsmul_le_sum ms.toFinset A.breadth 1 fun d hd =>
    (hms d (mem_toFinset.1 hd)).breadth_pos
  rwa [card_toFinset, Nat.nsmul_eq_mul, Nat.mul_one] at hcount

/-- What a part of some constraints leaves of their breadth. -/
theorem spread_diff {kept ms : IndexSet} (h : kept ⊆ ms) :
    A.spread (ms.diff kept) + A.spread kept = A.spread ms := by
  rw [spread, spread, toFinset_diff]
  exact Finset.sum_sdiff fun d hd => mem_toFinset.2 (h d (mem_toFinset.1 hd))

theorem spread_insert_le (A : Arena) (ms : IndexSet) (c : ConstraintId) :
    A.spread (ms.insert c) ≤ A.spread ms + A.breadth c := by
  rw [spread, spread, toFinset_insert]
  by_cases hc : c ∈ ms.toFinset
  · rw [Finset.insert_eq_of_mem hc]
    exact Nat.le_add_right _ _
  · rw [Finset.sum_insert hc, Nat.add_comm]

theorem spread_lt {kept ms : IndexSet} (h : kept ⊆ ms) (hne : kept ≠ ms)
    (hms : ∀ d ∈ ms, A.Registered d) : A.spread kept < A.spread ms := by
  have hrest : ∃ d, d ∈ ms.diff kept := by
    by_contra hnone
    push Not at hnone
    apply hne
    apply Subset.antisymm h
    intro d hd
    by_contra hdk
    exact hnone d (mem_diff.2 ⟨hd, hdk⟩)
  rcases hrest with ⟨d, hd⟩
  have hpos : 0 < A.spread (ms.diff kept) :=
    Finset.sum_pos (fun e he => (hms e (mem_diff.1 (mem_toFinset.1 he)).1).breadth_pos)
      ⟨d, mem_toFinset.2 hd⟩
  have hsum := spread_diff (A := A) h
  omega

section Built

variable (hA : A.Built)
include hA

theorem Built.size_ne_one (hc : A.disjuncts? c = .ok (some ms)) : ms.size ≠ 1 := by
  have hplace := disjuncts_eq_ok hc
  rcases hplace with ⟨r, hr, he⟩
  exact (hA.unfolds c r hr).several ms he

theorem Built.registered_member (hc : A.disjuncts? c = .ok (some ms)) {d : ConstraintId}
    (hd : d ∈ ms) : A.Registered d := by
  have hplace := disjuncts_eq_ok hc
  rcases hplace with ⟨r, hr, he⟩
  apply (hA.spelled c r hr).registered ms _ d hd
  rw [he]
  rfl

theorem Built.breadth_of_disjuncts (hc : A.disjuncts? c = .ok (some ms)) :
    A.breadth c = max 1 (A.spread ms) := by
  have hplace := disjuncts_eq_ok hc
  rcases hplace with ⟨r, hr, he⟩
  rcases (hA.unfolds c r hr).members ms he with ⟨rs, hrs, hterm⟩
  have hmembers : ms.toList.map A.breadth = rs.map fun q => q.term.breadth := by
    rw [← List.forall₂_eq_eq_eq, List.forall₂_map_left_iff, List.forall₂_map_right_iff]
    exact (mapM_eq_ok.1 hrs).imp fun _ _ hq => breadth_of_place (place_eq_ok.1 hq)
  rw [breadth_of_place hr, hterm, Term.breadth, Term.breadths_eq, List.map_map, spread, toFinset,
    List.sum_toFinset _ (nodup_toList ms), hmembers]
  rfl

theorem Built.breadth_of_plain (hc : A.disjuncts? c = .ok none) : A.breadth c = 1 := by
  rcases registered_of_disjuncts hc with ⟨r, hr⟩
  have hnone : ∀ ms, r.entry ≠ .disjunction ms := by
    intro ms he
    rw [disjuncts?, entry_of_place hr, he] at hc
    cases hc
  have hterm := (hA.unfolds c r hr).plain hnone
  rw [breadth_of_place hr]
  cases ht : r.term with
  | atomic p => rfl
  | any ts => exact absurd ht (hterm ts)
  | all ts => rfl

theorem Built.width_le_breadth (hc : A.Registered c) : A.width c ≤ A.breadth c := by
  rcases hc.exists_disjuncts with ⟨ms?, hms⟩
  cases ms? with
  | none =>
    rw [width_of_plain hms]
    omega
  | some ms =>
    have hsize := size_le_spread fun d hd => hA.registered_member hms hd
    rw [width_of_disjuncts hms, hA.breadth_of_disjuncts hms]
    omega

/-- Where a disjunction stands, its members are not registered anew. -/
theorem Built.disjunction_found (hc : A.disjuncts? c = .ok (some ms)) :
    A.disjunction ms = .ok (c, A) := by
  have hplace := disjuncts_eq_ok hc
  rcases hplace with ⟨r, hr, he⟩
  have honly : only? ms = none := by
    cases h : only? ms with
    | none => rfl
    | some d =>
      have hone : ms.size = 1 := by rw [IndexSet.size, toList_of_only h, List.length_singleton]
      exact absurd hone (hA.size_ne_one hc)
  cases hfind : A.find? (.disjunction ms) with
  | none =>
    have hshape := find?_eq_none hfind hr
    rw [he] at hshape
    exact absurd rfl hshape
  | some d =>
    rw [Arena.disjunction, honly, hfind, hA.eq_of_disjuncts (disjuncts_of_find hfind) hc]

/-- The disjunction of some constraints is their only one, or has them as its members. -/
theorem Built.exists_disjunction (hms : ∀ d ∈ ms, A.Registered d) :
    ∃ c B, A.disjunction ms = .ok (c, B) ∧ B.Registered c ∧
      (ms = .singleton c ∧ B = A ∨ ms.size ≠ 1 ∧ B.disjuncts? c = .ok (some ms)) := by
  cases honly : only? ms with
  | some c =>
    have hlist := toList_of_only honly
    have hset : ms = .singleton c := by
      apply ext_mem
      intro d
      rw [← mem_toList', hlist, List.mem_singleton, mem_singleton]
    have hc : c ∈ ms := by rw [hset, mem_singleton]
    exact ⟨c, A, by rw [Arena.disjunction, honly], hms c hc, .inl ⟨hset, rfl⟩⟩
  | none =>
    have hsize := size_ne_one_of_only honly
    cases hfind : A.find? (.disjunction ms) with
    | some c =>
      have hc := disjuncts_of_find hfind
      exact ⟨c, A, by rw [Arena.disjunction, honly, hfind], registered_of_disjuncts hc, .inr ⟨hsize, hc⟩⟩
    | none =>
      rcases hA.exists_duals hms with ⟨dual, rs, rs', hdual, hrs, hrs'⟩
      have hnew := getElem?_register_size A (.disjunction ms rs) (.conjunction dual rs')
      refine ⟨A.size, (A.register (.disjunction ms rs) (.conjunction dual rs')).2, ?_, ⟨_, hnew⟩,
        .inr ⟨hsize, disjuncts_of_place hnew rfl⟩⟩
      rw [Arena.disjunction, honly, hfind]
      simp only [hdual, hrs, hrs', bind, Except.bind]
      rfl

end Built

/-! ### Bulk -/

theorem bulk_lt_of_breadth {d : ConstraintId} (hd : B.width d ≤ B.breadth d)
    (h : B.breadth d < A.breadth c) : B.bulk d < A.bulk c := by
  unfold bulk
  nlinarith

theorem bulk_lt_of_width {d : ConstraintId} (hle : B.breadth d ≤ A.breadth c)
    (h : B.width d < A.width c) : B.bulk d < A.bulk c := by
  unfold bulk
  nlinarith

/-- A disjunction of constraints that are less broad is smaller, also where it is the only one
of them. -/
theorem Built.bulk_disjunction_lt (hA : A.Built) {kept : IndexSet} {d : ConstraintId}
    (hc : A.disjuncts? c = .ok (some ms)) (hkept : ∀ e ∈ kept, A.Registered e)
    (hlt : A.spread kept < A.spread ms) (h : A.disjunction kept = .ok (d, B)) :
    B.bulk d < A.bulk c := by
  have hB := Built.disjunction hA h
  rcases hA.exists_disjunction hkept with ⟨d', B', h', hd, hshape⟩
  cases h.symm.trans h'
  apply bulk_lt_of_breadth (hB.width_le_breadth hd)
  have hsize := size_le_spread fun e he => hA.registered_member hc he
  have hne := hA.size_ne_one hc
  have hc' := hA.breadth_of_disjuncts hc
  rcases hshape with ⟨hone, hBA⟩ | ⟨-, hd'⟩
  · rw [hBA, ← spread_singleton, ← hone]
    omega
  · have hbreadth := hB.breadth_of_disjuncts hd'
    rw [(extends_disjunction h).spread hkept] at hbreadth
    -- A disjunction of no constraint is one broad, as an atomic one, but `c` has two members.
    have hsome : ms.size ≠ 0 := by
      intro hzero
      have hempty : ms.toFinset = ∅ := Finset.card_eq_zero.1 (by rw [card_toFinset, hzero])
      rw [spread, spread, hempty, Finset.sum_empty] at hlt
      omega
    omega

end Arena

end Acquisition
