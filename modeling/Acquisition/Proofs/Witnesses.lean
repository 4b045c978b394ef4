import Acquisition.Proofs.Backtracking
import Acquisition.Proofs.Evaluation

/-!
# Queries that are found

A query that the search finds gives a value from its domain to each variable of the network, and
to no other variable, and each constraint that has a variable comes to true on it. A constraint
without variables is watched by no level, and so no search ever looks at one. Whether the network
holds on the query hangs on these constraints alone, and not on the query.
-/
namespace Acquisition

open Checked IndexSet

/-- A constraint without variables has a value, and there is no sum to give up on. -/
theorem Arena.Built.exists_eval {A : Arena} {c : ConstraintId} (hA : A.Built)
    (hc : A.Registered c) (hvars : ∀ v, ¬ A.Mentions c v) (g : Var → Option Value) :
    ∃ b, A.eval g c = .ok (some b) := by
  cases heval : A.eval g c with
  | ok r =>
    obtain ⟨b, rfl⟩ := eval_settled (fun v hv => absurd hv (hvars v)) heval
    exact ⟨b, rfl⟩
  | error e =>
    obtain ⟨d, vs, op, bound, xs, hd, hp, hxs, hsum⟩ := (hA.spills hc heval).exists_sum
    have hnil : vs = [] := List.eq_nil_iff_forall_not_mem.2 fun v hv =>
      hvars v (hA.mentions_iff.2 ⟨d, _, hd, hp, hv⟩)
    subst hnil
    cases hxs
    cases hsum

namespace Witness

variable {A : Arena} {N : Network}

/-- What is found for a network: its scope has values from the domain, each constraint with a
variable comes to true, and the network holds just if each constraint without variables does. -/
structure Solves (A : Arena) (D : Domain) (N : Network) (q : Query) : Prop where
  scope : q.scope = N.scope
  within : ∀ v x, q.valueOf v = some x → D.Allows v x
  eval : ∀ c ∈ N.constraints, (∃ v, A.Mentions c v) → A.eval q.valueOf c = .ok (some true)
  check : ∃ b, N.check A q = .ok b ∧
    (b = true ↔ ∀ c ∈ N.constraints, (∀ v, ¬ A.Mentions c v) →
      A.eval (fun _ => none) c = .ok (some true))

theorem check_of_eval {q : Query} {c : ConstraintId} {b : Bool}
    (h : A.eval q.valueOf c = .ok (some b)) : A.check q c = .ok b := by
  rw [Arena.check, h]
  rfl

/-- Where the constraints with variables come to true, the others decide. -/
theorem check_of_vars {q : Query} (hA : A.Built) (hN : ∀ c ∈ N.constraints, A.Registered c)
    (heval : ∀ c ∈ N.constraints, (∃ v, A.Mentions c v) → A.eval q.valueOf c = .ok (some true)) :
    ∃ b, N.check A q = .ok b ∧
      (b = true ↔ ∀ c ∈ N.constraints, (∀ v, ¬ A.Mentions c v) →
        A.eval (fun _ => none) c = .ok (some true)) := by
  -- Without variables, the value is the same on every query.
  have hsame : ∀ c, (∀ v, ¬ A.Mentions c v) → A.eval q.valueOf c = A.eval (fun _ => none) c :=
    fun c hvars => Arena.eval_congr fun v hv => absurd hv (hvars v)
  have htold : ∀ c ∈ N.constraints, ∃ b, A.eval q.valueOf c = .ok (some b) := by
    intro c hc
    by_cases hvars : ∃ v, A.Mentions c v
    · exact ⟨true, heval c hc hvars⟩
    · exact hA.exists_eval (hN c hc) (not_exists.1 hvars) _
  cases hcheck : N.check A q with
  | error e =>
    obtain ⟨c, hc, he⟩ := allM_eq_error hcheck
    obtain ⟨b, hb⟩ := htold c (mem_toList'.1 hc)
    rw [check_of_eval hb] at he
    cases he
  | ok b =>
    refine ⟨b, rfl, ?_⟩
    rw [Network.check_iff hcheck]
    constructor
    · intro hall c hc hvars
      obtain ⟨b', hb'⟩ := htold c hc
      have hholds := hall c hc
      rw [check_of_eval hb'] at hholds
      rw [← hsame c hvars, hb', Except.ok.inj hholds]
    · intro hclosed c hc
      apply check_of_eval
      by_cases hvars : ∃ v, A.Mentions c v
      · exact heval c hc hvars
      · rw [hsame c (not_exists.1 hvars)]
        exact hclosed c hc (not_exists.1 hvars)

namespace Searcher

/-- The choices found are for variables of the scope, with values from the domain. -/
theorem explore_levels_within {D : Domain} {ls : List Level} {g : Stream} {found : Choices}
    (hls : levels D A N = .ok ls) (h : (explore A ls [] g).1 = .ok (some found)) {v : Var}
    {x : Value} (hx : found.lookup v = some x) : v ∈ N.scope ∧ D.Allows v x := by
  obtain ⟨hvars, hfits⟩ := levels_eq_ok hls
  obtain ⟨new, hnew, hfound, hallowed⟩ := explore_extends hfits h
  rw [List.append_nil] at hnew
  subst hnew
  have hmem := (Query.lookup_eq_some_iff (explore_levels_valueOf hls h).1).1 hx
  refine ⟨?_, hallowed _ hmem⟩
  rw [← mem_toList', ← List.mem_reverse, ← hvars, ← hfound]
  exact List.mem_map_of_mem hmem

theorem solves_of_explore {D : Domain} {ls : List Level} {g : Stream} {found : Choices}
    (hA : A.Built) (hN : N.Closed A) (hls : levels D A N = .ok ls)
    (h : (explore A ls [] g).1 = .ok (some found)) : Solves A D N (Query.ofPairs found) := by
  obtain ⟨-, hvalue, hscope⟩ := explore_levels_valueOf hls h
  have hlookup : (Query.ofPairs found).valueOf = (found.lookup ·) := by
    funext v
    exact Option.ext (hvalue v)
  have heval : ∀ c ∈ N.constraints, (∃ v, A.Mentions c v) →
      A.eval (Query.ofPairs found).valueOf c = .ok (some true) := by
    intro c hc hvars
    rw [hlookup]
    exact explore_levels_eval hN hls h hc hvars
  refine ⟨?_, ?_, heval, check_of_vars hA (fun c hc => (hN c hc).1) heval⟩
  · apply ext_mem
    intro v
    rw [Query.mem_scope, Option.isSome_iff_exists]
    constructor
    · rintro ⟨x, hx⟩
      exact (explore_levels_within hls h ((hvalue v x).1 hx)).1
    · intro hv
      obtain ⟨x, hx, -⟩ := hscope v hv
      exact ⟨x, hx⟩
  · exact fun v x hx => (explore_levels_within hls h ((hvalue v x).1 hx)).2

/-- Whatever the domains, the limit and the state of the generator, a query that is found is over
the scope of the network, within the domains, and on it each constraint with a variable comes to
true. The network holds on it just if its constraints without variables do. -/
theorem witness_solves (S : Searcher) (hA : A.Built) (hN : N.Closed A) :
    (witness A N).Leads S (fun r _ => ∀ q, r = some q → Solves A S.domain N q)
      (fun _ _ => True) := by
  unfold witness
  simp only [Action.leads_bind, Action.leads_modify, Action.leads_get, Action.leads_ofExcept]
  refine ⟨fun ls hls => ?_, fun _ _ => trivial⟩
  split
  · simp only [Action.leads_bind, Action.leads_modify, Action.leads_fail]
  · simp only [Action.leads_bind, Action.leads_set, Action.leads_ofChecked, Action.leads_pure]
    refine ⟨fun r hr q hq => ?_, fun _ _ => trivial⟩
    obtain ⟨found, rfl, rfl⟩ := Option.map_eq_some_iff.1 hq
    exact solves_of_explore hA hN hls hr

/-- The values that are found for the two bits satisfy the network of both. -/
theorem witness_solves_both : Exhaustive.sample.Built ∧ both.Closed Exhaustive.sample ∧
    ∃ q S', (witness Exhaustive.sample both).outcome overBits = (.ok (some q), S') ∧
      Solves Exhaustive.sample Exhaustive.bits both q := by
  have hfound : (witness Exhaustive.sample both).Leads overBits (fun r _ => r.isSome)
      (fun _ _ => False) := by
    decide +kernel
  obtain ⟨r, S', houtcome, hsome⟩ := hfound.exists_outcome
  obtain ⟨q, rfl⟩ := Option.isSome_iff_exists.1 hsome
  have hsolves := witness_solves overBits Exhaustive.built_sample closed_both
  exact ⟨Exhaustive.built_sample, closed_both, q, S', houtcome, hsolves.of_ok houtcome q rfl⟩

end Searcher

end Witness

namespace Exhaustive

open Arena Witness

/-- That a variable is one, and the disjunction of nothing. -/
def unwatched : List Entry := [.atomic (.unary 0 .eq 1 1), .disjunction .empty]

/-- The network of both. -/
def absurdity : Network := ⟨.singleton 0, .ofList [0, 2]⟩

def overBit : Searcher := { domain := .ofList [⟨0, 1⟩], stream := .congruential 0 }

/-- The search finds a query on which the network fails: no level watches the disjunction of
nothing, which has no variable and holds nowhere. -/
theorem witness_misses_unwatched : ∃ A : Arena, A.Built ∧ absurdity.Closed A ∧
    ∃ q S', (Searcher.witness A absurdity).outcome overBit = (.ok (some q), S') ∧
      absurdity.check A q = .ok false := by
  have h : (stack .empty unwatched).any (fun A =>
      decide (Network.ofList A (.singleton 0) [0, 2] = .ok absurdity) &&
        decide ((Searcher.witness A absurdity).Leads overBit
          (fun r _ => r.any (fun q => decide (absurdity.check A q = .ok false)) = true)
          (fun _ _ => False))) = true := by
    decide +kernel
  obtain ⟨A, hA, hcheck⟩ := (Option.any_eq_true _ _).1 h
  obtain ⟨hnetwork, hleads⟩ := Bool.and_eq_true_iff.1 hcheck
  have hclosed : absurdity.Closed A :=
    (Network.closed_ofScope _ _).addAll (of_decide_eq_true hnetwork)
  obtain ⟨r, S', houtcome, hr⟩ := (of_decide_eq_true hleads).exists_outcome
  obtain ⟨q, rfl, hq⟩ := (Option.any_eq_true _ _).1 hr
  exact ⟨A, (reaches_of_stack hA).built .empty, hclosed, q, S', houtcome, of_decide_eq_true hq⟩

end Exhaustive

end Acquisition
