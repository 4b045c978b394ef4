import Acquisition.Proofs.Registrations

/-!
# Evaluation on partial assignments

What a disjunction or conjunction comes to on a partial assignment is told by what its members
come to, in the manner of a logic of three values in which open is the third. A value that is
settled stays as it is when further variables get values, and nothing is open once all of them
have one. A constraint and its negation come to opposite values on every partial assignment,
although the members of the negation are a set of their own, with an order of their own: it
differs from the order of the members only where a member stands beside its own negation.

An evaluation that is given up is given up on a sum that leaves its word.
-/
namespace Acquisition

open Checked IndexSet

/-- What an evaluation comes to: a value, open or not, or a fault. -/
abbrev Verdict := Checked (Option Bool)

namespace Verdict

variable {x y x' y' : Verdict} {xs ys : List Verdict}

def opposite (x : Verdict) : Verdict := Option.map not <$> x

/-- The second is looked at unless the first is true. -/
def or (x y : Verdict) : Verdict :=
  match x with
  | .error e => .error e
  | .ok (some true) => .ok (some true)
  | .ok (some false) => y
  | .ok none => (fun r => if r == some true then some true else none) <$> y

/-- The second is looked at unless the first is false. -/
def and (x y : Verdict) : Verdict :=
  match x with
  | .error e => .error e
  | .ok (some false) => .ok (some false)
  | .ok (some true) => y
  | .ok none => (fun r => if r == some false then some false else none) <$> y

def disjoin (xs : List Verdict) : Verdict := xs.foldr or (.ok (some false))

def conjoin (xs : List Verdict) : Verdict := xs.foldr and (.ok (some true))

/-! ### Opposites -/

theorem opposite_opposite (x : Verdict) : x.opposite.opposite = x := by
  rcases x with e | _ | _ | _ <;> rfl

theorem and_opposite (x y : Verdict) : x.opposite.and y.opposite = (x.or y).opposite := by
  rcases x with e | _ | _ | _
  · rfl
  · rcases y with e | _ | _ | _ <;> rfl
  · rfl
  · rfl

theorem or_opposite (x y : Verdict) : x.opposite.or y.opposite = (x.and y).opposite := by
  rw [← opposite_opposite (x.opposite.or y.opposite), ← and_opposite, opposite_opposite,
    opposite_opposite]

theorem conjoin_opposite (xs : List Verdict) :
    conjoin (xs.map opposite) = (disjoin xs).opposite := by
  induction xs with
  | nil => rfl
  | cons x xs ih =>
    change x.opposite.and (conjoin (xs.map opposite)) = (x.or (disjoin xs)).opposite
    rw [ih, and_opposite]

theorem disjoin_opposite (xs : List Verdict) :
    disjoin (xs.map opposite) = (conjoin xs).opposite := by
  induction xs with
  | nil => rfl
  | cons x xs ih =>
    change x.opposite.or (disjoin (xs.map opposite)) = (x.and (conjoin xs)).opposite
    rw [ih, or_opposite]

/-- Opposites that stand beside each other may change places: where one of them settles the
matter or is a fault, so does or is the other. -/
theorem or_swap (x y : Verdict) : x.or (x.opposite.or y) = x.opposite.or (x.or y) := by
  rcases x with e | _ | _ | _ <;> rfl

theorem and_swap (x y : Verdict) : x.and (x.opposite.and y) = x.opposite.and (x.and y) := by
  rcases x with e | _ | _ | _ <;> rfl

/-! ### Members -/

theorem disjoin_eq_error {e : Fault} (h : disjoin xs = .error e) : .error e ∈ xs := by
  induction xs with
  | nil => cases h
  | cons x xs ih =>
    change x.or (disjoin xs) = .error e at h
    rcases x with e' | _ | _ | _
    · exact h ▸ List.mem_cons_self
    · cases hxs : disjoin xs with
      | error e' =>
        rw [hxs] at h
        exact List.mem_cons_of_mem _ (ih (hxs.trans h))
      | ok r =>
        rw [hxs] at h
        cases h
    · exact List.mem_cons_of_mem _ (ih h)
    · cases h

/-- A disjunction comes to true where some member does, and to false where all of them do. -/
theorem disjoin_eq_ok {r : Option Bool} (h : disjoin xs = .ok r) :
    (r = some true ↔ .ok (some true) ∈ xs) ∧
      (r = some false ↔ ∀ x ∈ xs, x = .ok (some false)) := by
  induction xs generalizing r with
  | nil =>
    cases h
    simp
  | cons x xs ih =>
    change x.or (disjoin xs) = .ok r at h
    rcases x with e | _ | _ | _
    · cases h
    · obtain ⟨r', hxs, hr⟩ := map_eq_ok.1 h
      have htrue := (ih hxs).1
      rcases r' with _ | _ | _ <;> cases hr <;> simpa using htrue
    · have hrest := ih h
      simpa using hrest
    · cases h
      simp

theorem conjoin_eq_opposite (xs : List Verdict) :
    conjoin xs = (disjoin (xs.map opposite)).opposite := by
  rw [disjoin_opposite, opposite_opposite]

theorem opposite_eq_ok {r : Option Bool} : x.opposite = .ok r ↔ x = .ok (r.map not) := by
  rcases x with e | _ | _ | _ <;> rcases r with _ | _ | _ <;>
    simp [opposite, Functor.map, Except.map]

theorem opposite_eq_error {e : Fault} : x.opposite = .error e ↔ x = .error e := by
  rcases x with e' | _ | _ | _ <;> simp [opposite, Functor.map, Except.map]

theorem conjoin_eq_error {e : Fault} (h : conjoin xs = .error e) : .error e ∈ xs := by
  rw [conjoin_eq_opposite, opposite_eq_error] at h
  obtain ⟨x, hx, he⟩ := List.mem_map.1 (disjoin_eq_error h)
  exact opposite_eq_error.1 he ▸ hx

/-- A conjunction comes to false where some member does, and to true where all of them do. -/
theorem conjoin_eq_ok {r : Option Bool} (h : conjoin xs = .ok r) :
    (r = some false ↔ .ok (some false) ∈ xs) ∧
      (r = some true ↔ ∀ x ∈ xs, x = .ok (some true)) := by
  rw [conjoin_eq_opposite, opposite_eq_ok] at h
  obtain ⟨htrue, hfalse⟩ := disjoin_eq_ok h
  constructor
  · have hopposite : r = some false ↔ r.map not = some true := by
      rcases r with _ | _ | _ <;> simp
    rw [hopposite, htrue, List.mem_map]
    constructor
    · rintro ⟨x, hx, hx'⟩
      exact opposite_eq_ok.1 hx' ▸ hx
    · exact fun hx => ⟨_, hx, rfl⟩
  · have hopposite : r = some true ↔ r.map not = some false := by
      rcases r with _ | _ | _ <;> simp
    rw [hopposite, hfalse, List.forall_mem_map]
    exact forall₂_congr fun x _ => opposite_eq_ok

/-! ### Further values -/

/-- What was settled is unchanged, unless there is a fault. -/
def Keeps (x y : Verdict) : Prop := ∀ b, x = .ok (some b) → y = .ok (some b) ∨ ∃ e, y = .error e

theorem Keeps.opposite (h : x.Keeps y) : x.opposite.Keeps y.opposite := by
  intro b hb
  rcases h _ (opposite_eq_ok.1 hb) with hy | ⟨e, hy⟩
  · exact .inl (opposite_eq_ok.2 hy)
  · exact .inr ⟨e, opposite_eq_error.2 hy⟩

theorem Keeps.or (hx : x.Keeps x') (hy : y.Keeps y') : (x.or y).Keeps (x'.or y') := by
  intro b hb
  rcases x with e | _ | _ | _
  · cases hb
  · -- The first was open, so the second is true, and stays so whatever becomes of the first.
    obtain ⟨r, hr, hb⟩ := map_eq_ok.1 hb
    rcases r with _ | _ | _ <;> cases hb
    rcases x' with e | _ | _ | _
    · exact .inr ⟨e, rfl⟩
    · rcases hy true hr with rfl | ⟨e, rfl⟩
      · exact .inl rfl
      · exact .inr ⟨e, rfl⟩
    · exact hy true hr
    · exact .inl rfl
  · rcases hx false rfl with rfl | ⟨e, rfl⟩
    · exact hy b hb
    · exact .inr ⟨e, rfl⟩
  · rcases hx true rfl with rfl | ⟨e, rfl⟩
    · exact .inl hb
    · exact .inr ⟨e, rfl⟩

theorem Keeps.disjoin (h : List.Forall₂ Keeps xs ys) :
    (Verdict.disjoin xs).Keeps (Verdict.disjoin ys) := by
  induction h with
  | nil => exact fun b hb => .inl hb
  | cons hx _ ih => exact hx.or ih

theorem Keeps.conjoin (h : List.Forall₂ Keeps xs ys) :
    (Verdict.conjoin xs).Keeps (Verdict.conjoin ys) := by
  rw [conjoin_eq_opposite, conjoin_eq_opposite]
  apply Keeps.opposite
  apply Keeps.disjoin
  rw [List.forall₂_map_left_iff, List.forall₂_map_right_iff]
  exact h.imp fun _ _ hx => hx.opposite

end Verdict

namespace Predicate

theorem holds_negate_values (p : Predicate) (values : List Value) :
    p.negate.holds values = not <$> p.holds values := by
  cases p with
  | unary v op k w =>
    cases values with
    | nil => rfl
    | cons a values => exact congrArg Except.ok (Comparison.holds_complement op a k)
  | binary x y op w =>
    rcases values with _ | ⟨a, _ | ⟨b, values⟩⟩
    · rfl
    · rfl
    · exact congrArg Except.ok (Comparison.holds_complement op a b)
  | sum vs op bound =>
    simp only [negate, holds]
    cases sumSigned values with
    | error e => rfl
    | ok i => exact congrArg Except.ok (Comparison.holds_complement op i bound)

/-- The variables of a sum have values, and these do not add up within a word. -/
def Spills (g : Var → Option Value) : Predicate → Prop
  | sum vs _ _ => ∃ xs, vs.mapM g = some xs ∧ sumSigned xs = .error .overflow
  | _ => False

end Predicate

theorem isSome_of_mapM {f : Var → Option Value} {vs : List Var} {xs : List Value}
    (h : vs.mapM f = some xs) : ∀ v ∈ vs, (f v).isSome := by
  induction vs generalizing xs with
  | nil => exact nofun
  | cons v vs ih =>
    cases hv : f v with
    | none => simp [hv] at h
    | some x =>
      cases hvs : vs.mapM f with
      | none => simp [hv, hvs] at h
      | some ys =>
        rw [List.forall_mem_cons]
        exact ⟨by rw [hv]; rfl, ih hvs⟩

namespace Term

variable {f g : Var → Option Value} {p : Predicate}

theorem evalAny_eq (ts : List Term) :
    evalAny f ts = Verdict.disjoin (ts.map fun t => t.eval f) := by
  induction ts with
  | nil => rw [evalAny, List.map_nil, Verdict.disjoin, List.foldr_nil]
  | cons t ts ih =>
    rw [evalAny, ih]
    change _ = Verdict.or (t.eval f) (Verdict.disjoin _)
    rcases t.eval f with e | _ | _ | _
    · rfl
    · simp only [Verdict.or, map_eq_pure_bind]
      rfl
    · rfl
    · rfl

theorem evalAll_eq (ts : List Term) :
    evalAll f ts = Verdict.conjoin (ts.map fun t => t.eval f) := by
  induction ts with
  | nil => rw [evalAll, List.map_nil, Verdict.conjoin, List.foldr_nil]
  | cons t ts ih =>
    rw [evalAll, ih]
    change _ = Verdict.and (t.eval f) (Verdict.conjoin _)
    rcases t.eval f with e | _ | _ | _
    · rfl
    · simp only [Verdict.and, map_eq_pure_bind]
      rfl
    · rfl
    · rfl

theorem evalPredicate_negate (f : Var → Option Value) (p : Predicate) :
    evalPredicate f p.negate = Verdict.opposite (evalPredicate f p) := by
  simp only [evalPredicate, Predicate.vars_negate]
  cases p.vars.mapM f with
  | none => rfl
  | some values =>
    simp only [Predicate.holds_negate_values]
    cases p.holds values <;> rfl

theorem assigned_of_evalPredicate {b : Bool} (h : evalPredicate f p = .ok (some b)) :
    ∀ v ∈ p.vars, (f v).isSome := by
  unfold evalPredicate at h
  split at h
  · cases h
  · next values hvalues => exact isSome_of_mapM hvalues

/-- An atomic constraint looks at its own variables, and these have values once it is settled. -/
theorem evalPredicate_keeps (hfg : ∀ v x, f v = some x → g v = some x) (p : Predicate) :
    Verdict.Keeps (evalPredicate f p) (evalPredicate g p) := by
  intro b hb
  left
  rw [← hb]
  apply evalPredicate_congr
  intro v hv
  obtain ⟨x, hx⟩ := Option.isSome_iff_exists.1 (assigned_of_evalPredicate hb v hv)
  rw [hx, hfg v x hx]

/-- The evaluation of an atomic constraint is given up only on a sum that spills. -/
theorem spills_of_evalPredicate {e : Fault} (h : evalPredicate g p = .error e) : p.Spills g := by
  have he := evalPredicate_error h
  subst he
  unfold evalPredicate at h
  split at h
  · cases h
  · next values hvalues =>
    have hextends : Valuation.Extends (fun v => (g v).getD 0) g := fun v x hx => by simp [hx]
    have hmap := Valuation.mapM_eq_map hextends hvalues
    cases p with
    | unary v op k w =>
      subst hmap
      cases h
    | binary x y op w =>
      subst hmap
      cases h
    | sum vs op bound =>
      refine ⟨values, hvalues, ?_⟩
      cases hsum : sumSigned values with
      | error e =>
        simp only [Predicate.holds, hsum] at h
        rw [Except.error.inj h]
      | ok i =>
        simp only [Predicate.holds, hsum] at h
        cases h

end Term

namespace Arena

variable {A : Arena} {c d n : ConstraintId} {e : Entry} {ms : IndexSet} {f g : Var → Option Value}

/-! ### Members in order -/

/-- Some places in order, each exchanged for the one next to it. Two that are next to each other
are exchanged with each other, so they remain. -/
def mirror : List Nat → List Nat
  | [] => []
  | [c] => [twin c]
  | c :: d :: cs => if d = twin c then c :: d :: mirror cs else twin c :: mirror (d :: cs)

theorem mem_mirror {c : Nat} (cs : List Nat) : c ∈ mirror cs ↔ twin c ∈ cs := by
  have htwin : ∀ a, c = twin a ↔ twin c = a := fun a =>
    ⟨fun h => by rw [h, twin_twin], fun h => by rw [← h, twin_twin]⟩
  induction cs using mirror.induct with
  | case1 => simp [mirror]
  | case2 a => simp [mirror, htwin]
  | case3 a cs ih =>
    rw [mirror, if_pos rfl]
    have hpair : c = a ↔ twin c = twin a := twin_injective.eq_iff.symm
    simp only [List.mem_cons, ih, htwin, hpair]
    rw [or_left_comm]
  | case4 a d cs hd ih =>
    rw [mirror, if_neg hd]
    simp only [List.mem_cons, ih, htwin]

theorem twin_le (c : Nat) : twin c ≤ c + 1 := by
  unfold twin
  split <;> omega

/-- Places that do not stand side by side are in the order of the places next to them. -/
theorem twin_lt_twin {c d : Nat} (h : c < d) (hne : d ≠ twin c) : twin c < twin d := by
  by_cases hc : c % 2 = 0 <;> by_cases hd : d % 2 = 0 <;>
    simp only [twin, hc, hd, if_true, if_false] at hne ⊢ <;> omega

/-- Places in increasing order are in increasing order after the exchange. -/
theorem increasing_mirror {cs : List Nat} (h : cs.Pairwise (· < ·)) :
    (mirror cs).Pairwise (· < ·) := by
  induction cs using mirror.induct with
  | case1 => exact .nil
  | case2 a => exact List.pairwise_singleton _ _
  | case3 a cs ih =>
    rw [mirror, if_pos rfl]
    obtain ⟨ha, hrest⟩ := List.pairwise_cons.1 h
    obtain ⟨htwin, hcs⟩ := List.pairwise_cons.1 hrest
    have hlt := ha _ List.mem_cons_self
    have hafter : ∀ b ∈ mirror cs, twin a < b := by
      intro b hb
      have htwin' := htwin _ ((mem_mirror cs).1 hb)
      have hlt' := twin_lt_twin htwin' (by rw [twin_twin]; omega)
      have hne : b ≠ twin a := fun hab => by rw [hab, twin_twin] at htwin'; omega
      have hle := twin_le a
      rw [twin_twin, twin_twin] at hlt'
      omega
    refine List.pairwise_cons.2 ⟨?_, List.pairwise_cons.2 ⟨hafter, ih hcs⟩⟩
    rw [List.forall_mem_cons]
    exact ⟨hlt, fun b hb => hlt.trans (hafter b hb)⟩
  | case4 a d cs hd ih =>
    rw [mirror, if_neg hd]
    obtain ⟨ha, hrest⟩ := List.pairwise_cons.1 h
    refine List.pairwise_cons.2 ⟨?_, ih hrest⟩
    intro b hb
    have hb' := (mem_mirror (d :: cs)).1 hb
    have hd' := ha d List.mem_cons_self
    have hle : d ≤ twin b := by
      rcases List.mem_cons.1 hb' with hbd | hbcs
      · exact hbd.ge
      · exact ((List.pairwise_cons.1 hrest).1 _ hbcs).le
    have hne : twin b ≠ twin a := by
      have := twin_le a
      omega
    rw [← twin_twin b]
    exact twin_lt_twin (by omega) hne

theorem toList_twins (ms : IndexSet) : (twins ms).toList = mirror ms.toList := by
  have hincreasing := increasing_mirror (increasing_toList ms)
  rw [← toList_ofList hincreasing]
  apply toList_eq_iff.2
  intro c
  rw [mem_ofList, mem_mirror, mem_twins, mem_toList']

/-- Opposites that are next to each other may change places under the operation, so the members
of the negation, in their own order, come to what the opposites of the members come to. -/
theorem foldr_mirror {op : Verdict → Verdict → Verdict} {z : Verdict} {value : Nat → Verdict}
    (hswap : ∀ x y : Verdict, op x (op x.opposite y) = op x.opposite (op x y)) {cs : List Nat}
    (hvalue : ∀ c ∈ cs, value (twin c) = (value c).opposite) :
    ((mirror cs).map value).foldr op z = ((cs.map value).map Verdict.opposite).foldr op z := by
  induction cs using mirror.induct with
  | case1 => rfl
  | case2 a => rw [mirror, List.map_singleton, hvalue a List.mem_cons_self]; rfl
  | case3 a cs ih =>
    have ha := hvalue a List.mem_cons_self
    have hcs := ih fun c hc => hvalue c (List.mem_cons_of_mem _ (List.mem_cons_of_mem _ hc))
    rw [mirror, if_pos rfl]
    simp only [List.map_cons, List.foldr_cons, ha, hcs, Verdict.opposite_opposite, hswap]
  | case4 a d cs hd ih =>
    have ha := hvalue a List.mem_cons_self
    have hrest := ih fun c hc => hvalue c (List.mem_cons_of_mem _ hc)
    rw [mirror, if_neg hd, List.map_cons, List.foldr_cons, ha, hrest]
    rfl

/-! ### Values of constraints -/

theorem eval_of_place {r : Registration} (h : A.places[c]? = some r) :
    A.eval f c = r.term.eval f := by
  rw [eval, term_eq_ok.2 ⟨r, h, rfl⟩]
  rfl

theorem eval_members {rs : List Registration} (h : ms.toList.mapM A.place = .ok rs) :
    (rs.map (·.term)).map (fun t => t.eval f) = ms.toList.map (A.eval f) := by
  rw [List.map_map, eq_comm, ← List.forall₂_eq_eq_eq, List.forall₂_map_left_iff,
    List.forall₂_map_right_iff]
  exact (mapM_eq_ok.1 h).imp fun _ _ hr => eval_of_place (place_eq_ok.1 hr)

theorem Built.eval_atomic (hA : A.Built) {p : Predicate} (h : A.entry c = .ok (.atomic p)) :
    A.eval f c = Term.evalPredicate f p := by
  obtain ⟨r, hr, he⟩ := entry_eq_ok.1 h
  rw [eval_of_place hr]
  cases (hA.composes c r hr).1 with
  | atomic q =>
    cases he
    rfl
  | disjunction _ _ => cases he
  | conjunction _ _ => cases he

theorem Built.eval_disjunction (hA : A.Built) (h : A.entry c = .ok (.disjunction ms)) :
    A.eval f c = Verdict.disjoin (ms.toList.map (A.eval f)) := by
  obtain ⟨r, hr, he⟩ := entry_eq_ok.1 h
  rw [eval_of_place hr]
  cases (hA.composes c r hr).1 with
  | atomic q => cases he
  | disjunction _ hrs =>
    cases he
    exact (Term.evalAny_eq _).trans (by rw [eval_members hrs])
  | conjunction _ _ => cases he

theorem Built.eval_conjunction (hA : A.Built) (h : A.entry c = .ok (.conjunction ms)) :
    A.eval f c = Verdict.conjoin (ms.toList.map (A.eval f)) := by
  obtain ⟨r, hr, he⟩ := entry_eq_ok.1 h
  rw [eval_of_place hr]
  cases (hA.composes c r hr).1 with
  | atomic q => cases he
  | disjunction _ _ => cases he
  | conjunction _ hrs =>
    cases he
    exact (Term.evalAll_eq _).trans (by rw [eval_members hrs])

theorem member_of_entry (h : A.entry c = .ok e) (hms : e.members? = some ms) (hd : d ∈ ms) :
    A.Member d c := by
  obtain ⟨r, hr, rfl⟩ := entry_eq_ok.1 h
  exact ⟨ms, members_eq_ok.2 ⟨r, hr, hms⟩, hd⟩

theorem Registered.exists_entry (h : A.Registered c) : ∃ e, A.entry c = .ok e := by
  obtain ⟨r, hr⟩ := h
  exact ⟨r.entry, entry_eq_ok.2 ⟨r, hr, rfl⟩⟩

theorem Built.registered_of_member (hA : A.Built) (h : A.Member d c) : A.Registered d := by
  obtain ⟨ms, hms, hd⟩ := h
  obtain ⟨r, hr, hentry⟩ := members_eq_ok.1 hms
  exact (hA.composes c r hr).1.registered hentry hd

/-- What holds of an atomic constraint, and of one with members once it holds of these, holds of
every constraint that was handed out. -/
@[elab_as_elim]
theorem Built.members_rec {P : ConstraintId → Prop} (hA : A.Built) (hc : A.Registered c)
    (hatomic : ∀ c p, A.entry c = .ok (.atomic p) → P c)
    (hdisjunction : ∀ c ms, A.entry c = .ok (.disjunction ms) → (∀ d ∈ ms, P d) → P c)
    (hconjunction : ∀ c ms, A.entry c = .ok (.conjunction ms) → (∀ d ∈ ms, P d) → P c) :
    P c := by
  induction c using Nat.strong_induction_on with
  | _ c ih =>
    obtain ⟨e, he⟩ := hc.exists_entry
    have hmembers : ∀ ms, e.members? = some ms → ∀ d ∈ ms, P d := by
      intro ms hms d hd
      have hmember := member_of_entry he hms hd
      exact ih d (hA.lt_of_member hmember) (hA.registered_of_member hmember)
    cases e with
    | atomic p => exact hatomic c p he
    | disjunction ms => exact hdisjunction c ms he (hmembers ms rfl)
    | conjunction ms => exact hconjunction c ms he (hmembers ms rfl)

theorem Built.opposed (hA : A.Built) : A.Facing fun r r' => r'.entry = r.entry.opposite := by
  apply hA.rule
  · intro c r hc
    simp [Arena.empty] at hc
  · intro A r r' hA ih _ hpairs
    have hopposite := hpairs.opposite
    exact ih.register hA.paired.even hopposite (by rw [hopposite, Entry.opposite_opposite])

theorem Built.entry_twin (hA : A.Built) (h : A.entry c = .ok e) :
    A.entry (twin c) = .ok e.opposite := by
  obtain ⟨r, hr, rfl⟩ := entry_eq_ok.1 h
  obtain ⟨r', hr', hopposite⟩ := hA.opposed c r hr
  exact entry_eq_ok.2 ⟨r', hr', hopposite⟩

/-- The negation comes to the opposite, on every partial assignment. -/
theorem Built.eval_twin (hA : A.Built) (hc : A.Registered c) :
    A.eval f (twin c) = Verdict.opposite (A.eval f c) := by
  refine hA.members_rec hc ?_ ?_ ?_
  · intro c p he
    rw [hA.eval_atomic he, hA.eval_atomic (hA.entry_twin he), Term.evalPredicate_negate]
  · intro c ms he ih
    rw [hA.eval_disjunction he, hA.eval_conjunction (hA.entry_twin he), toList_twins,
      ← Verdict.conjoin_opposite]
    exact foldr_mirror Verdict.and_swap fun d hd => ih d (mem_toList'.1 hd)
  · intro c ms he ih
    rw [hA.eval_conjunction he, hA.eval_disjunction (hA.entry_twin he), toList_twins,
      ← Verdict.disjoin_opposite]
    exact foldr_mirror Verdict.or_swap fun d hd => ih d (mem_toList'.1 hd)

theorem Built.keeps (hA : A.Built) (hfg : ∀ v x, f v = some x → g v = some x)
    (hc : A.Registered c) : Verdict.Keeps (A.eval f c) (A.eval g c) := by
  have hmembers : ∀ {ms : IndexSet}, (∀ d ∈ ms, Verdict.Keeps (A.eval f d) (A.eval g d)) →
      List.Forall₂ Verdict.Keeps (ms.toList.map (A.eval f)) (ms.toList.map (A.eval g)) := by
    intro ms ih
    rw [List.forall₂_map_left_iff, List.forall₂_map_right_iff, List.forall₂_same]
    exact fun d hd => ih d (mem_toList'.1 hd)
  refine hA.members_rec hc ?_ ?_ ?_
  · intro c p he
    rw [hA.eval_atomic he, hA.eval_atomic he]
    exact Term.evalPredicate_keeps hfg p
  · intro c ms he ih
    rw [hA.eval_disjunction he, hA.eval_disjunction he]
    exact .disjoin (hmembers ih)
  · intro c ms he ih
    rw [hA.eval_conjunction he, hA.eval_conjunction he]
    exact .conjoin (hmembers ih)

theorem Built.mentions_atomic (hA : A.Built) {p : Predicate} (h : A.entry c = .ok (.atomic p))
    {v : Var} : A.Mentions c v ↔ v ∈ p.vars := by
  obtain ⟨r, hr, he⟩ := entry_eq_ok.1 h
  rw [mentions_of_place hr, (hA.composes c r hr).1.scope_atomic he]

/-! ### Faults -/

/-- Some sum that a constraint comes down to spills. -/
def Spills (A : Arena) (g : Var → Option Value) (c : ConstraintId) : Prop :=
  ∃ d p, Relation.ReflTransGen A.Member d c ∧ A.entry d = .ok (.atomic p) ∧ p.Spills g

/-- The evaluation is given up, on a sum that spills. Comparisons of one variable or of two
never do. -/
def GivesUp (A : Arena) (g : Var → Option Value) (c : ConstraintId) : Prop :=
  A.eval g c = .error .overflow ∧ A.Spills g c

theorem Spills.exists_sum (h : A.Spills g c) : ∃ d vs op bound xs,
    Relation.ReflTransGen A.Member d c ∧ A.entry d = .ok (.atomic (.sum vs op bound)) ∧
      vs.mapM g = some xs ∧ sumSigned xs = .error .overflow := by
  obtain ⟨d, p, hd, hp, hspills⟩ := h
  cases p with
  | unary v op k w => exact hspills.elim
  | binary x y op w => exact hspills.elim
  | sum vs op bound =>
    obtain ⟨xs, hxs, hsum⟩ := hspills
    exact ⟨d, vs, op, bound, xs, hd, hp, hxs, hsum⟩

theorem Spills.member (h : A.Spills g d) (hmember : A.Member d c) : A.Spills g c := by
  obtain ⟨a, p, ha, hp, hspills⟩ := h
  exact ⟨a, p, ha.tail hmember, hp, hspills⟩

theorem Built.spills (hA : A.Built) (hc : A.Registered c) {e : Fault}
    (h : A.eval g c = .error e) : A.Spills g c := by
  revert h
  refine hA.members_rec hc ?_ ?_ ?_
  · intro c p he h
    rw [hA.eval_atomic he] at h
    exact ⟨c, p, .refl, he, Term.spills_of_evalPredicate h⟩
  · intro c ms he ih h
    rw [hA.eval_disjunction he] at h
    obtain ⟨d, hd, hde⟩ := List.mem_map.1 (Verdict.disjoin_eq_error h)
    have hd' := mem_toList'.1 hd
    exact (ih d hd' hde).member (member_of_entry he rfl hd')
  · intro c ms he ih h
    rw [hA.eval_conjunction he] at h
    obtain ⟨d, hd, hde⟩ := List.mem_map.1 (Verdict.conjoin_eq_error h)
    have hd' := mem_toList'.1 hd
    exact (ih d hd' hde).member (member_of_entry he rfl hd')

theorem Built.givesUp (hA : A.Built) (hc : A.Registered c) {e : Fault}
    (h : A.eval g c = .error e) : A.GivesUp g c := by
  have he := hc.told.value g e h
  subst he
  exact ⟨h, hA.spills hc h⟩

/-! ### The logic -/

/-- The values of a constraint and of its negation are those of a sound logic of three values. -/
structure ThreeValued (A : Arena) (c n : ConstraintId) : Prop where
  /-- A settled value stays when further variables get values. -/
  keeps : ∀ f g b, (∀ v x, f v = some x → g v = some x) → A.eval f c = .ok (some b) →
    A.eval g c = .ok (some b) ∨ A.GivesUp g c
  /-- With values for all of its variables, the constraint is settled. -/
  settled : ∀ g, (∀ v, A.Mentions c v → (g v).isSome) →
    (∃ b, A.eval g c = .ok (some b)) ∨ A.GivesUp g c
  /-- A disjunction is true where some member is, and false where all of them are. -/
  disjunction : ∀ g ms r, A.disjuncts? c = .ok (some ms) → A.eval g c = .ok r →
    (r = some true ↔ ∃ d ∈ ms, A.eval g d = .ok (some true)) ∧
      (r = some false ↔ ∀ d ∈ ms, A.eval g d = .ok (some false))
  /-- A conjunction is true where all members are, and false where some member is. -/
  conjunction : ∀ g ms r, A.conjuncts? c = .ok (some ms) → A.eval g c = .ok r →
    (r = some true ↔ ∀ d ∈ ms, A.eval g d = .ok (some true)) ∧
      (r = some false ↔ ∃ d ∈ ms, A.eval g d = .ok (some false))
  /-- The negation is true where the constraint is false, false where it is true, open where it
  is open, and given up where it is given up. -/
  negation : ∀ f, A.eval f n = Option.map not <$> A.eval f c
  /-- With values for all variables, exactly one of the two holds. -/
  opposed : ∀ g, (∀ v, A.Mentions c v → (g v).isSome) →
    (∃ b, A.eval g c = .ok (some b) ∧ A.eval g n = .ok (some !b)) ∨
      A.GivesUp g c ∧ A.GivesUp g n

theorem entry_of_conjuncts (h : A.conjuncts? c = .ok (some ms)) :
    A.entry c = .ok (.conjunction ms) := by
  simp only [conjuncts?, bind_eq_ok] at h
  obtain ⟨e, he, h⟩ := h
  split at h
  · cases h
    exact he
  · cases h

theorem entry_of_disjuncts (h : A.disjuncts? c = .ok (some ms)) :
    A.entry c = .ok (.disjunction ms) :=
  entry_eq_ok.2 (disjuncts_eq_ok h)

/-- Whatever was registered evaluates as in a sound logic of three values. -/
theorem Built.three_valued (hA : A.Built) (h : A.negation c = .ok n) : A.ThreeValued c n := by
  obtain ⟨rfl, hc⟩ := negation_eq_ok h
  have hnegation : ∀ f, A.eval f (twin c) = Option.map not <$> A.eval f c :=
    fun f => hA.eval_twin hc
  have hsettled : ∀ g, (∀ v, A.Mentions c v → (g v).isSome) →
      (∃ b, A.eval g c = .ok (some b)) ∨ A.GivesUp g c := by
    intro g hg
    cases heval : A.eval g c with
    | error e => exact .inr (hA.givesUp hc heval)
    | ok r =>
      obtain ⟨b, rfl⟩ := eval_settled hg heval
      exact .inl ⟨b, rfl⟩
  constructor
  case keeps =>
    intro f g b hfg hb
    rcases hA.keeps hfg hc b hb with hg | ⟨e, hg⟩
    · exact .inl hg
    · exact .inr (hA.givesUp hc hg)
  case settled => exact hsettled
  case disjunction =>
    intro g ms r hms hr
    rw [hA.eval_disjunction (entry_of_disjuncts hms)] at hr
    simpa using Verdict.disjoin_eq_ok hr
  case conjunction =>
    intro g ms r hms hr
    rw [hA.eval_conjunction (entry_of_conjuncts hms)] at hr
    simpa [and_comm] using Verdict.conjoin_eq_ok hr
  case negation => exact hnegation
  case opposed =>
    intro g hg
    rcases hsettled g hg with ⟨b, hb⟩ | hup
    · refine .inl ⟨b, hb, ?_⟩
      rw [hnegation, hb]
      rfl
    · have htwin := hA.paired.registered_twin hc
      have hfault : A.eval g (twin c) = .error .overflow := by
        rw [hnegation, hup.1]
        rfl
      exact .inr ⟨hup, hA.givesUp htwin hfault⟩

end Arena

namespace Exhaustive

open Arena

/-- In the arena of the layers, a disjunction of metas holds once the first variable is 0, and
its negation fails, whatever the second variable comes to be. -/
theorem three_valued_layers : ∃ A : Arena, A.Built ∧ A.negation 8 = .ok 9 ∧ A.ThreeValued 8 9 ∧
    A.eval (fun v => if v = 0 then some 0 else none) 8 = .ok (some true) ∧
    A.eval (fun v => if v = 0 then some 0 else none) 9 = .ok (some false) := by
  have h : (stack .empty layers).any (fun A => decide (A.negation 8 = .ok 9) &&
      decide (A.eval (fun v => if v = 0 then some 0 else none) 8 = .ok (some true))) = true := by
    decide +kernel
  obtain ⟨A, hA, hcheck⟩ := (Option.any_eq_true _ _).1 h
  obtain ⟨hnegation, heval⟩ := Bool.and_eq_true_iff.1 hcheck
  have hbuilt := (reaches_of_stack hA).built .empty
  have hvalued := hbuilt.three_valued (of_decide_eq_true hnegation)
  refine ⟨A, hbuilt, of_decide_eq_true hnegation, hvalued, of_decide_eq_true heval, ?_⟩
  rw [hvalued.negation, of_decide_eq_true heval]
  rfl

end Exhaustive

end Acquisition
