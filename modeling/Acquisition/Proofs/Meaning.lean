import Acquisition.Query
import Acquisition.Constraint.Term
import Acquisition.Proofs.Sets
import Mathlib.Algebra.Ring.Int.Defs

/-!
# The meaning of terms

A term holds or fails on each valuation of all variables. Sums are not bounded
here. The evaluator works on partial assignments and gives up when a sum leaves
its word. Where it settles a term, it says what holds on every valuation that
extends the assignment; and it leaves a term open only if some variable of the
term has no value.
-/
namespace Acquisition

/-- Values for all variables. -/
abbrev Valuation := Var → Value

/-- The valuation gives each variable the value that it has in a partial assignment. -/
def Valuation.Extends (f : Valuation) (g : Var → Option Value) : Prop :=
  ∀ v x, g v = some x → f v = x

theorem Valuation.mapM_eq_map {f : Valuation} {g : Var → Option Value} (h : f.Extends g)
    {vs : List Var} {xs : List Value} (hxs : vs.mapM g = some xs) : xs = vs.map f := by
  induction vs generalizing xs with
  | nil => simp_all
  | cons v vs ih =>
    rw [List.mapM_cons] at hxs
    cases hv : g v with
    | none => simp [hv] at hxs
    | some x =>
      cases hvs : vs.mapM g with
      | none => simp [hv, hvs] at hxs
      | some ys =>
        have hx : xs = x :: ys := by simpa [hv, hvs, eq_comm] using hxs
        rw [hx, List.map_cons, h v x hv, ih hvs]

theorem mapM_isSome {g : Var → Option Value} {vs : List Var} (h : ∀ v ∈ vs, (g v).isSome) :
    (vs.mapM g).isSome := by
  induction vs with
  | nil => rfl
  | cons v vs ih =>
    obtain ⟨x, hx⟩ := Option.isSome_iff_exists.1 (h v List.mem_cons_self)
    obtain ⟨xs, hxs⟩ := Option.isSome_iff_exists.1
      (ih fun w hw => h w (List.mem_cons_of_mem _ hw))
    simp [hx, hxs]

theorem mapM_congr {f g : Var → Option Value} {vs : List Var} (h : ∀ v ∈ vs, f v = g v) :
    vs.mapM f = vs.mapM g := by
  induction vs with
  | nil => rfl
  | cons v vs ih =>
    rw [List.mapM_cons, List.mapM_cons, h v List.mem_cons_self,
      ih fun w hw => h w (List.mem_cons_of_mem v hw)]

namespace Checked

theorem signed_eq_ok {i j : Int} (h : signed i = .ok j) : j = i := by
  unfold signed at h
  split at h
  · exact (Except.ok.inj h).symm
  · cases h

theorem foldlM_signed {xs : List Int} {i j : Int}
    (h : xs.foldlM (fun total x => signed (total + x)) i = .ok j) : j = i + xs.sum := by
  induction xs generalizing i with
  | nil => simpa [pure, Except.pure, eq_comm] using h
  | cons x xs ih =>
    rw [List.foldlM_cons] at h
    cases hx : signed (i + x) with
    | error f => rw [hx] at h; cases h
    | ok k =>
      rw [hx] at h
      have := ih h
      rw [this, signed_eq_ok hx, List.sum_cons]
      omega

theorem foldlM_signed_error {xs : List Int} {i : Int} {e : Fault}
    (h : xs.foldlM (fun total x => signed (total + x)) i = .error e) : e = .overflow := by
  induction xs generalizing i with
  | nil => cases h
  | cons x xs ih =>
    rw [List.foldlM_cons] at h
    cases hx : signed (i + x) with
    | ok k =>
      rw [hx] at h
      exact ih h
    | error f =>
      rw [hx] at h
      unfold signed at hx
      split at hx
      · cases hx
      · exact (Except.error.inj h).symm.trans (Except.error.inj hx).symm

/-- A sum that stays in its word is the sum. -/
theorem sumSigned_eq_ok {xs : List Int} {i : Int} (h : sumSigned xs = .ok i) : i = xs.sum := by
  simpa using foldlM_signed h

end Checked

namespace Predicate

/-- Whether an atomic constraint holds on a valuation. -/
def Holds (f : Valuation) : Predicate → Prop
  | unary v op k _ => op.holds (f v) k = true
  | binary x y op _ => op.holds (f x) (f y) = true
  | sum vs op b => op.holds (vs.map f).sum b = true

theorem holds_negate (f : Valuation) (p : Predicate) : p.negate.Holds f ↔ ¬ p.Holds f := by
  cases p <;> simp [negate, Holds, Comparison.holds_complement]

theorem holds_map {f : Valuation} {p : Predicate} {b : Bool} (h : p.holds (p.vars.map f) = .ok b) :
    b = true ↔ p.Holds f := by
  cases p with
  | unary v op k w =>
    rw [← Except.ok.inj h]
    rfl
  | binary x y op w =>
    rw [← Except.ok.inj h]
    rfl
  | sum vs op bound =>
    cases hs : Checked.sumSigned (vs.map f) with
    | error e => simp [holds, vars, hs, bind, Except.bind] at h
    | ok i =>
      have hb : op.holds i bound = b := by
        simpa [holds, vars, hs, bind, Except.bind, pure, Except.pure] using h
      rw [← hb, Checked.sumSigned_eq_ok hs]
      rfl

theorem holds_map_error {f : Valuation} {p : Predicate} {e : Fault}
    (h : p.holds (p.vars.map f) = .error e) : e = .overflow := by
  cases p with
  | unary v op k w => cases h
  | binary x y op w => cases h
  | sum vs op bound =>
    cases hs : Checked.sumSigned (vs.map f) with
    | ok i => simp [holds, vars, hs, bind, Except.bind, pure, Except.pure] at h
    | error e' =>
      have he : e' = e := by simpa [holds, vars, hs, bind, Except.bind] using h
      rw [← he]
      exact Checked.foldlM_signed_error hs

theorem holds_congr {f g : Valuation} {p : Predicate} (h : ∀ v ∈ p.vars, f v = g v) :
    p.Holds f ↔ p.Holds g := by
  cases p with
  | unary v op k w => simp only [Holds, h v (by simp [vars])]
  | binary x y op w => simp only [Holds, h x (by simp [vars]), h y (by simp [vars])]
  | sum vs op bound =>
    have e : vs.map f = vs.map g := List.map_congr_left h
    simp only [Holds, e]

end Predicate

namespace Term

mutual

/-- Whether a term holds on a valuation. -/
def Holds (f : Valuation) : Term → Prop
  | atomic p => p.Holds f
  | any ts => SomeHolds f ts
  | all ts => EachHolds f ts

def SomeHolds (f : Valuation) : List Term → Prop
  | [] => False
  | t :: ts => t.Holds f ∨ SomeHolds f ts

def EachHolds (f : Valuation) : List Term → Prop
  | [] => True
  | t :: ts => t.Holds f ∧ EachHolds f ts

end

theorem someHolds_iff {f : Valuation} {ts : List Term} :
    SomeHolds f ts ↔ ∃ t ∈ ts, t.Holds f := by
  induction ts with
  | nil => simp [SomeHolds]
  | cons t ts ih => simp [SomeHolds, ih]

theorem eachHolds_iff {f : Valuation} {ts : List Term} :
    EachHolds f ts ↔ ∀ t ∈ ts, t.Holds f := by
  induction ts with
  | nil => simp [EachHolds]
  | cons t ts ih => simp [EachHolds, ih]

theorem contains_scopes {ts : List Term} {v : Var} :
    (scopes ts).contains v = true ↔ ∃ t ∈ ts, t.scope.contains v = true := by
  induction ts with
  | nil => simp [scopes, IndexSet.contains_empty]
  | cons t ts ih => simp [scopes, IndexSet.contains_union, ih]

mutual

theorem holds_congr {f g : Valuation} (t : Term) (h : ∀ v ∈ t.scope, f v = g v) :
    t.Holds f ↔ t.Holds g := by
  cases t with
  | atomic p => exact Predicate.holds_congr fun v hv => h v (IndexSet.mem_ofList.2 hv)
  | any ts => exact someHolds_congr ts h
  | all ts => exact eachHolds_congr ts h

theorem someHolds_congr {f g : Valuation} (ts : List Term) (h : ∀ v ∈ scopes ts, f v = g v) :
    SomeHolds f ts ↔ SomeHolds g ts := by
  cases ts with
  | nil => exact Iff.rfl
  | cons t ts =>
    exact or_congr (holds_congr t fun v hv => h v (IndexSet.mem_union.2 (.inl hv)))
      (someHolds_congr ts fun v hv => h v (IndexSet.mem_union.2 (.inr hv)))

theorem eachHolds_congr {f g : Valuation} (ts : List Term) (h : ∀ v ∈ scopes ts, f v = g v) :
    EachHolds f ts ↔ EachHolds g ts := by
  cases ts with
  | nil => exact Iff.rfl
  | cons t ts =>
    exact and_congr (holds_congr t fun v hv => h v (IndexSet.mem_union.2 (.inl hv)))
      (eachHolds_congr ts fun v hv => h v (IndexSet.mem_union.2 (.inr hv)))

end

theorem evalPredicate_congr {f g : Var → Option Value} {p : Predicate}
    (h : ∀ v ∈ p.vars, f v = g v) : evalPredicate f p = evalPredicate g p := by
  simp only [evalPredicate, mapM_congr h]

mutual

/-- The value of a term hangs on its own variables. -/
theorem eval_congr {f g : Var → Option Value} (t : Term) (h : ∀ v ∈ t.scope, f v = g v) :
    t.eval f = t.eval g := by
  cases t with
  | atomic p => exact evalPredicate_congr fun v hv => h v (IndexSet.mem_ofList.2 hv)
  | any ts => exact evalAny_congr ts h
  | all ts => exact evalAll_congr ts h

theorem evalAny_congr {f g : Var → Option Value} (ts : List Term)
    (h : ∀ v ∈ scopes ts, f v = g v) : evalAny f ts = evalAny g ts := by
  cases ts with
  | nil => rfl
  | cons t ts =>
    rw [evalAny, evalAny, eval_congr t fun v hv => h v (IndexSet.mem_union.2 (.inl hv)),
      evalAny_congr ts fun v hv => h v (IndexSet.mem_union.2 (.inr hv))]

theorem evalAll_congr {f g : Var → Option Value} (ts : List Term)
    (h : ∀ v ∈ scopes ts, f v = g v) : evalAll f ts = evalAll g ts := by
  cases ts with
  | nil => rfl
  | cons t ts =>
    rw [evalAll, evalAll, eval_congr t fun v hv => h v (IndexSet.mem_union.2 (.inl hv)),
      evalAll_congr ts fun v hv => h v (IndexSet.mem_union.2 (.inr hv))]

end

theorem evalPredicate_sound {f : Valuation} {g : Var → Option Value} (hf : f.Extends g)
    {p : Predicate} {b : Bool} (h : evalPredicate g p = .ok (some b)) : b = true ↔ p.Holds f := by
  unfold evalPredicate at h
  split at h
  · cases h
  · next values hv =>
    rw [Valuation.mapM_eq_map hf hv] at h
    cases hp : p.holds (p.vars.map f) with
    | error e => simp [hp, Functor.map, Except.map] at h
    | ok c =>
      have hc : c = b := by simpa [hp, Functor.map, Except.map] using h
      rw [← hc]
      exact Predicate.holds_map hp

/-- What a disjunction comes to is settled by its first member and the rest. -/
theorem evalAny_cons {g : Var → Option Value} {t : Term} {ts : List Term} {r : Option Bool}
    (h : evalAny g (t :: ts) = .ok r) :
    (t.eval g = .ok (some true) ∧ r = some true) ∨
      (t.eval g = .ok (some false) ∧ evalAny g ts = .ok r) ∨
      (t.eval g = .ok none ∧ ∃ r', evalAny g ts = .ok r' ∧
        r = if r' = some true then some true else none) := by
  rw [evalAny] at h
  cases ht : t.eval g with
  | error e => simp [ht, bind, Except.bind] at h
  | ok b =>
    simp only [ht, bind, Except.bind] at h
    rcases b with _ | _ | _
    · right; right
      cases hts : evalAny g ts with
      | error e => simp [hts] at h
      | ok r' =>
        rw [hts] at h
        refine ⟨rfl, r', rfl, ?_⟩
        rw [← Except.ok.inj h]
        simp
    · exact .inr (.inl ⟨rfl, h⟩)
    · exact .inl ⟨rfl, (Except.ok.inj h).symm⟩

theorem evalAll_cons {g : Var → Option Value} {t : Term} {ts : List Term} {r : Option Bool}
    (h : evalAll g (t :: ts) = .ok r) :
    (t.eval g = .ok (some false) ∧ r = some false) ∨
      (t.eval g = .ok (some true) ∧ evalAll g ts = .ok r) ∨
      (t.eval g = .ok none ∧ ∃ r', evalAll g ts = .ok r' ∧
        r = if r' = some false then some false else none) := by
  rw [evalAll] at h
  cases ht : t.eval g with
  | error e => simp [ht, bind, Except.bind] at h
  | ok b =>
    simp only [ht, bind, Except.bind] at h
    rcases b with _ | _ | _
    · right; right
      cases hts : evalAll g ts with
      | error e => simp [hts] at h
      | ok r' =>
        rw [hts] at h
        refine ⟨rfl, r', rfl, ?_⟩
        rw [← Except.ok.inj h]
        simp
    · exact .inl ⟨rfl, (Except.ok.inj h).symm⟩
    · exact .inr (.inl ⟨rfl, h⟩)

mutual

/-- A settled value is what the term comes to on each valuation that extends the
assignment. -/
theorem eval_sound {f : Valuation} {g : Var → Option Value} (hf : f.Extends g) (t : Term)
    {b : Bool} (h : t.eval g = .ok (some b)) : b = true ↔ t.Holds f := by
  cases t with
  | atomic p => exact evalPredicate_sound hf h
  | any ts => exact evalAny_sound hf ts h
  | all ts => exact evalAll_sound hf ts h

theorem evalAny_sound {f : Valuation} {g : Var → Option Value} (hf : f.Extends g)
    (ts : List Term) {b : Bool} (h : evalAny g ts = .ok (some b)) :
    b = true ↔ SomeHolds f ts := by
  cases ts with
  | nil => simpa [evalAny, SomeHolds, eq_comm] using h
  | cons t ts =>
    rcases evalAny_cons h with ⟨ht, hb⟩ | ⟨ht, hts⟩ | ⟨-, r, hts, hb⟩
    · have hh : t.Holds f := (eval_sound hf t ht).1 rfl
      cases hb
      exact ⟨fun _ => .inl hh, fun _ => rfl⟩
    · have hh : ¬ t.Holds f := fun hh => Bool.noConfusion ((eval_sound hf t ht).2 hh)
      rw [evalAny_sound hf ts hts, SomeHolds, or_iff_right hh]
    · by_cases hr : r = some true
      · have hh : SomeHolds f ts := (evalAny_sound hf ts (hr ▸ hts)).1 rfl
        rw [if_pos hr] at hb
        cases hb
        exact ⟨fun _ => .inr hh, fun _ => rfl⟩
      · rw [if_neg hr] at hb
        cases hb

theorem evalAll_sound {f : Valuation} {g : Var → Option Value} (hf : f.Extends g)
    (ts : List Term) {b : Bool} (h : evalAll g ts = .ok (some b)) :
    b = true ↔ EachHolds f ts := by
  cases ts with
  | nil => simpa [evalAll, EachHolds, eq_comm] using h
  | cons t ts =>
    rcases evalAll_cons h with ⟨ht, hb⟩ | ⟨ht, hts⟩ | ⟨-, r, hts, hb⟩
    · have hh : ¬ t.Holds f := fun hh => Bool.noConfusion ((eval_sound hf t ht).2 hh)
      cases hb
      exact ⟨fun h => Bool.noConfusion h, fun h => absurd h.1 hh⟩
    · have hh : t.Holds f := (eval_sound hf t ht).1 rfl
      rw [evalAll_sound hf ts hts, EachHolds, and_iff_right hh]
    · by_cases hr : r = some false
      · have hh : ¬ EachHolds f ts := fun hh =>
          Bool.noConfusion ((evalAll_sound hf ts (hr ▸ hts)).2 hh)
        rw [if_pos hr] at hb
        cases hb
        exact ⟨fun h => Bool.noConfusion h, fun h => absurd h.2 hh⟩
      · rw [if_neg hr] at hb
        cases hb

end

mutual

/-- A term is settled once all of its variables have values. -/
theorem eval_settled {g : Var → Option Value} (t : Term) (hg : ∀ v ∈ t.scope, (g v).isSome)
    {r : Option Bool} (h : t.eval g = .ok r) : r.isSome := by
  cases t with
  | atomic p =>
    obtain ⟨xs, hxs⟩ := Option.isSome_iff_exists.1
      (mapM_isSome fun v hv => hg v (IndexSet.mem_ofList.2 hv))
    have hp : evalPredicate g p = some <$> p.holds xs := by rw [evalPredicate, hxs]
    rw [eval, hp] at h
    cases hv : p.holds xs with
    | error e => simp [hv, Functor.map, Except.map] at h
    | ok b =>
      have : some b = r := by simpa [hv, Functor.map, Except.map] using h
      rw [← this]
      rfl
  | any ts => exact evalAny_settled ts hg h
  | all ts => exact evalAll_settled ts hg h

theorem evalAny_settled {g : Var → Option Value} (ts : List Term)
    (hg : ∀ v ∈ scopes ts, (g v).isSome) {r : Option Bool} (h : evalAny g ts = .ok r) :
    r.isSome := by
  cases ts with
  | nil =>
    have : some false = r := Except.ok.inj h
    rw [← this]
    rfl
  | cons t ts =>
    have ht := fun v hv => hg v (IndexSet.mem_union.2 (.inl hv))
    have hts := fun v hv => hg v (IndexSet.mem_union.2 (.inr hv))
    rcases evalAny_cons h with ⟨-, hr⟩ | ⟨-, hr⟩ | ⟨hr, -⟩
    · rw [hr]; rfl
    · exact evalAny_settled ts hts hr
    · exact absurd (eval_settled t ht hr) (by simp)

theorem evalAll_settled {g : Var → Option Value} (ts : List Term)
    (hg : ∀ v ∈ scopes ts, (g v).isSome) {r : Option Bool} (h : evalAll g ts = .ok r) :
    r.isSome := by
  cases ts with
  | nil =>
    have : some true = r := Except.ok.inj h
    rw [← this]
    rfl
  | cons t ts =>
    have ht := fun v hv => hg v (IndexSet.mem_union.2 (.inl hv))
    have hts := fun v hv => hg v (IndexSet.mem_union.2 (.inr hv))
    rcases evalAll_cons h with ⟨-, hr⟩ | ⟨-, hr⟩ | ⟨hr, -⟩
    · rw [hr]; rfl
    · exact evalAll_settled ts hts hr
    · exact absurd (eval_settled t ht hr) (by simp)

end

theorem evalPredicate_error {g : Var → Option Value} {p : Predicate} {e : Fault}
    (h : evalPredicate g p = .error e) : e = .overflow := by
  unfold evalPredicate at h
  split at h
  · cases h
  · next values hv =>
    have hf : Valuation.Extends (fun v => (g v).getD 0) g := fun v x hx => by simp [hx]
    rw [Valuation.mapM_eq_map hf hv] at h
    cases hp : p.holds (p.vars.map fun v => (g v).getD 0) with
    | ok c => simp [hp, Functor.map, Except.map] at h
    | error e' =>
      have he : e' = e := by simpa [hp, Functor.map, Except.map] using h
      exact he ▸ Predicate.holds_map_error hp

mutual

/-- The evaluator gives up on a sum that leaves its word, and on nothing else. -/
theorem eval_error {g : Var → Option Value} (t : Term) {e : Fault} (h : t.eval g = .error e) :
    e = .overflow := by
  cases t with
  | atomic p => exact evalPredicate_error h
  | any ts => exact evalAny_error ts h
  | all ts => exact evalAll_error ts h

theorem evalAny_error {g : Var → Option Value} (ts : List Term) {e : Fault}
    (h : evalAny g ts = .error e) : e = .overflow := by
  cases ts with
  | nil => cases h
  | cons t ts =>
    rw [evalAny] at h
    cases ht : t.eval g with
    | error e' =>
      have he : e' = e := by simpa [ht, bind, Except.bind] using h
      exact he ▸ eval_error t ht
    | ok b =>
      simp only [ht, bind, Except.bind] at h
      rcases b with _ | _ | _
      · cases hts : evalAny g ts with
        | ok r' => simp [hts, pure, Except.pure] at h
        | error e' =>
          have he : e' = e := by simpa [hts] using h
          exact he ▸ evalAny_error ts hts
      · exact evalAny_error ts h
      · cases h

theorem evalAll_error {g : Var → Option Value} (ts : List Term) {e : Fault}
    (h : evalAll g ts = .error e) : e = .overflow := by
  cases ts with
  | nil => cases h
  | cons t ts =>
    rw [evalAll] at h
    cases ht : t.eval g with
    | error e' =>
      have he : e' = e := by simpa [ht, bind, Except.bind] using h
      exact he ▸ eval_error t ht
    | ok b =>
      simp only [ht, bind, Except.bind] at h
      rcases b with _ | _ | _
      · cases hts : evalAll g ts with
        | ok r' => simp [hts, pure, Except.pure] at h
        | error e' =>
          have he : e' = e := by simpa [hts] using h
          exact he ▸ evalAll_error ts hts
      · cases h
      · exact evalAll_error ts h

end

end Term

end Acquisition
