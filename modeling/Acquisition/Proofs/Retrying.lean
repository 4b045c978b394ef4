import Acquisition.Proofs.MapSearch
import Acquisition.Proofs.Resuming

/-!
# A search by a map whose backends fail

A caller may go on with a search after a call that ended in an error. A call that fails leaves
the clauses of the map and the subsets met as a call that succeeds leaves them, so no subset is
lost or found twice, and as many calls without an error as there are subsets of the bias, and one
more, come to the end of the search.

There is one exception. The base is looked into at the first call only, and that it was looked
into is noted before the backend answers. If the backend fails there, later calls take the base
to be consistent. The empty set is then met as a contradiction of a base that is inconsistent
by itself.
-/
namespace Acquisition

open Checked IndexSet

variable {σ : Type}

/-- The outcome of an action, where an error is an outcome too. -/
def Action.tolerate {α : Type} (x : Action σ α) : Action σ (Except ErrorKind α) := do
  match ← x.attempt with
  | .ok a => return .ok a
  | .error (.error e) => return .error e
  | .error f => throw f

/-- What holds after a failure, told of errors apart from the others. -/
def Failure.Either (Q : ErrorKind → σ → Prop) (E : Failure → σ → Prop) : Failure → σ → Prop
  | .error e => Q e
  | f => E f

theorem Action.leads_tolerate {α : Type} {x : Action σ α} {s : σ}
    {Q : Except ErrorKind α → σ → Prop} {E : Failure → σ → Prop}
    (h : x.Leads s (fun a t => Q (.ok a) t) (Failure.Either (fun e t => Q (.error e) t) E)) :
    x.tolerate.Leads s Q E := by
  rw [tolerate, leads_bind, leads_attempt]
  apply h.mono
  · exact fun a t ha => ha
  · intro f t hf
    cases f with
    | error e => exact hf
    | fault _ | outOfFuel => exact hf

/-- The failures that are errors. -/
def Errs (f : Failure) (_ : σ) : Prop := ∃ e, f = .error e

namespace MapSearch

variable {A : Arena} {dom : Ranges} {T : AtomTable} {sat : SatBackend σ} {cp : CpBackend σ}
  {issued : Issued σ} {fuel : Nat} {st : σ} {M : MapSearch}

/-- What each call came to, for some calls one after the other. A call that ends in an error is
not the last one. -/
def calls (A : Arena) (T : AtomTable) (sat : SatBackend σ) (cp : CpBackend σ) (fuel : Nat) :
    Nat → Procedure MapSearch σ (List (Except ErrorKind (Option MaximalSubset)))
  | 0 => return []
  | n + 1 => do
    let r ← (next? A T sat cp fuel).tolerate
    return r :: (← calls A T sat cp fuel n)

/-- The subset that a call returned. -/
def returned? : Except ErrorKind (Option MaximalSubset) → Option MaximalSubset
  | .ok r => r
  | .error _ => none

/-- The subsets that some calls returned. -/
def returned (rs : List (Except ErrorKind (Option MaximalSubset))) : List MaximalSubset :=
  rs.filterMap returned?

theorem countP_isOk {rs : List (Except ErrorKind (Option MaximalSubset))}
    (h : .ok none ∉ rs) : rs.countP (·.isOk) = (returned rs).length := by
  induction rs with
  | nil => rfl
  | cons r rs ih =>
    rw [List.mem_cons, not_or] at h
    rw [List.countP_cons, ih h.2]
    change _ = ((r :: rs).filterMap returned?).length
    rw [List.filterMap_cons]
    rcases r with e | _ | F
    · rfl
    · exact absurd rfl h.1
    · rfl

theorem leads_next_exhausted (hex : M.exhausted = true) :
    (next? A T sat cp fuel).Leads (M, st) (fun r p => r = none ∧ p = (M, st))
      (fun _ _ => False) := by
  simp only [next?, Action.leads_bind, Procedure.leads_own, hex, if_true, Action.leads_pure]
  trivial

/-- What holds after a call that did not fail, by what is known of the subsets found. The search
is over if nothing was returned. -/
def Yields (Inv : List MaximalSubset → MapSearch × σ → Prop) (found : List MaximalSubset) :
    Option MaximalSubset → MapSearch × σ → Prop
  | none, p => Inv found p ∧ p.1.exhausted = true
  | some F, p => Inv (found ++ [F]) p

/-- What one call keeps is kept by any number of calls, and a search that is over stays so. -/
theorem leads_calls {Inv : List MaximalSubset → MapSearch × σ → Prop}
    {E : Failure → MapSearch × σ → Prop}
    (hstep : ∀ found M st, Inv found (M, st) → M.exhausted = false →
      (next? A T sat cp fuel).Leads (M, st) (Yields Inv found)
        (Failure.Either (fun _ => Inv found) E))
    (n : Nat) {found : List MaximalSubset} (h : Inv found (M, st)) :
    (calls A T sat cp fuel n).Leads (M, st)
      (fun rs p => Inv (found ++ returned rs) p ∧
        (M.exhausted = true ∨ .ok none ∈ rs → p.1.exhausted = true))
      E := by
  induction n generalizing M st found with
  | zero =>
    rw [calls, Action.leads_pure]
    exact ⟨by simpa [returned] using h, by simp⟩
  | succ n ih =>
    -- After one call the search has come further by what it returned, and it is over if it
    -- was before or if nothing was returned without an error.
    have hcall : (next? A T sat cp fuel).tolerate.Leads (M, st)
        (fun r p => Inv (found ++ (returned? r).toList) p ∧
          (M.exhausted = true ∨ r = .ok none → p.1.exhausted = true)) E := by
      apply Action.leads_tolerate
      cases hex : M.exhausted with
      | true =>
        apply (leads_next_exhausted hex).mono
        · rintro r p ⟨rfl, rfl⟩
          exact ⟨by simpa [returned?] using h, fun _ => hex⟩
        · exact fun _ _ hno => hno.elim
      | false =>
        apply (hstep found M st h hex).mono
        · intro r p hr
          cases r with
          | none => exact ⟨by simpa [returned?] using hr.1, fun _ => hr.2⟩
          | some F => exact ⟨hr, by simp⟩
        · intro f p hf
          cases f with
          | error e => exact ⟨by simpa [returned?, Failure.Either] using hf, by simp⟩
          | fault _ | outOfFuel => exact hf
    rw [calls, Action.leads_bind]
    apply hcall.mono
    · rintro r ⟨M', t⟩ ⟨hinv, hend⟩
      rw [Action.leads_bind]
      apply (ih hinv).mono
      · rintro rs p ⟨hinv, hends⟩
        rw [Action.leads_pure]
        have hreturned : (returned? r).toList ++ returned rs = returned (r :: rs) := by
          rw [returned, returned, List.filterMap_cons]
          cases returned? r <;> rfl
        refine ⟨by rwa [List.append_assoc, hreturned] at hinv, fun hover => hends ?_⟩
        rcases hover with hex | hmem
        · exact .inl (hend (.inl hex))
        · rcases List.mem_cons.1 hmem with rfl | hmem
          · exact .inl (hend (.inr rfl))
          · exact .inr hmem
      · exact fun _ _ hf => hf
    · exact fun _ _ hf => hf

/-- What holds after some calls of a search, whether or not they failed: what they returned, and
what was met on the way. -/
structure Perseveres (A : Arena) (dom : Ranges) (whole : Network) (b : IndexSet)
    (given : List IndexSet) (rs : List (Except ErrorKind (Option MaximalSubset)))
    (M : MapSearch) : Prop where
  nodup : ((returned rs).map (·.subset)).Nodup
  maximal : ∀ F ∈ returned rs, Maximal (whole.Admits A dom) b F.subset ∧
    whole.Supports A dom F.witness F.subset
  nodup_muses : M.muses.Nodup
  minimal : ∀ s ∈ M.muses, Minimal (whole.Admits A dom) b s ∧ s ∉ given
  /-- An inconsistent base yields nothing. -/
  inconsistent : ¬ whole.Satisfiable A dom → returned rs = [] ∧ M.muses = []
  /-- Once a call has nothing left to return, everything was found. -/
  complete : whole.Satisfiable A dom → .ok none ∈ rs →
    (∀ s, Maximal (whole.Admits A dom) b s → s ∈ (returned rs).map (·.subset)) ∧
      ∀ s, Minimal (whole.Admits A dom) b s → s ∉ given → s ∈ M.muses
  /-- Calls that do not fail come to the end. -/
  ends : 2 ^ b.size < rs.countP (·.isOk) → .ok none ∈ rs

/-- How far a search on a consistent base has come by the subsets found so far. -/
structure Persists (issued : Issued σ) (A : Arena) (dom : Ranges) (T : AtomTable)
    (whole : Network) (b : IndexSet) (given : List IndexSet) (found : List MaximalSubset)
    (p : MapSearch × σ) : Prop where
  bias : p.1.bias = b
  base : p.1.base = whole
  assigns : T.Assigns issued p.2 b
  explored : Explored T (whole.Admits A dom) b given (found.map (·.subset)) p.1
  supported : ∀ F ∈ found, whole.Supports A dom F.witness F.subset
  decided : p.1.exhausted = true → Decided b given (found.map (·.subset)) p.1

variable {whole : Network} {b : IndexSet} {given : List IndexSet} {found : List MaximalSubset}

theorem Persists.perseveres {rs : List (Except ErrorKind (Option MaximalSubset))}
    {p : MapSearch × σ} (h : Persists issued A dom T whole b given (returned rs) p)
    (hend : .ok none ∈ rs → p.1.exhausted = true) (hsat : whole.Satisfiable A dom) :
    Perseveres A dom whole b given rs p.1 where
  nodup := h.explored.nodup_found
  maximal := fun F hF => ⟨h.explored.maximal _ (List.mem_map_of_mem hF), h.supported F hF⟩
  nodup_muses := h.explored.nodup_muses
  minimal := fun s hs => ⟨h.explored.minimal s hs, h.explored.fresh s hs⟩
  inconsistent := fun hno => absurd hsat hno
  complete := fun _ hnone => by
    obtain ⟨hmax, hmin⟩ :=
      h.explored.exact (Network.hereditary_admits _) (h.decided (hend hnone))
    exact ⟨fun s hs => (hmax s).2 hs, fun s hs hnew => (hmin s).2 ⟨hs, hnew⟩⟩
  ends := fun hcount => by
    by_contra hnone
    have hle := h.explored.length_le
    rw [countP_isOk hnone] at hcount
    rw [List.length_map] at hle
    omega

theorem perseveres_nothing {rs : List (Except ErrorKind (Option MaximalSubset))}
    (hrs : returned rs = []) (hmuses : M.muses = []) (hunsat : ¬ whole.Satisfiable A dom) :
    Perseveres A dom whole b given rs M where
  nodup := by simp [hrs]
  maximal := by simp [hrs]
  nodup_muses := by simp [hmuses]
  minimal := by simp [hmuses]
  inconsistent := fun _ => ⟨hrs, hmuses⟩
  complete := fun hsat => absurd hsat hunsat
  ends := fun hcount => by
    by_contra hnone
    rw [countP_isOk hnone, hrs] at hcount
    exact Nat.not_lt_zero _ hcount

/-- One call on a consistent base. -/
theorem Persists.leads_next (hsat : sat.Lawful issued Errs)
    (hcp : cp.Answers (T.Assigns issued · b) dom Errs) (hA : A.Built)
    (hwhole : whole.Closed A) (hspans : whole.Spans A b) (hbase : whole.Satisfiable A dom)
    (hfuel : 2 ^ b.size < fuel) (h : Persists issued A dom T whole b given found (M, st))
    (hex : M.exhausted = false) :
    (next? A T sat cp fuel).Leads (M, st)
      (Yields (Persists issued A dom T whole b given) found)
      (Failure.Either (fun _ => Persists issued A dom T whole b given found)
        fun f _ => f = .fault .overflow ∧ whole.Overflows A dom b) := by
  obtain ⟨hb, hw, hI, hexp, hsup, -⟩ := h
  obtain rfl : M.bias = b := hb
  obtain rfl : M.base = whole := hw
  apply (leads_step hsat hA fuel hcp ⟨hwhole, hspans⟩ hexp hex hI).mono
  · rintro r p ⟨hb, hw, hI, hr⟩
    cases r with
    | none =>
      rcases hr with ⟨hexp, hover, hdec⟩ | ⟨-, hunsat, -⟩
      · exact ⟨⟨hb, hw, hI, hexp, hsup, fun _ => hdec⟩, hover⟩
      · exact absurd hbase hunsat
    | some F =>
      rcases hr with ⟨hexp, hgoes, hF⟩ | ⟨hnone, -⟩
      · refine ⟨hb, hw, hI, by simpa using hexp, ?_, fun hover => ?_⟩
        · intro G hG
          rcases List.mem_append.1 hG with hG | hG
          · exact hsup G hG
          · rw [List.mem_singleton.1 hG]
            exact hF
        · rw [hgoes] at hover
          cases hover
      · cases hnone
  · rintro f p ⟨hb, hw, hI, hexp, hgoes, hf⟩
    have hkept : Persists issued A dom T M.base M.bias given found p :=
      ⟨hb, hw, hI, hexp, hsup, fun hover => by rw [hgoes] at hover; cases hover⟩
    cases f with
    | error e => exact hkept
    | fault e =>
      rcases hf with ⟨-, ⟨htime, -⟩ | ⟨e', he'⟩ | hover⟩ | ⟨hout, -⟩
      · cases htime
      · cases he'
      · rw [hb, hw] at hover
        exact hover
      · cases hout
    | outOfFuel =>
      rcases hf with ⟨-, ⟨htime, -⟩ | ⟨e', he'⟩ | hover⟩ | ⟨-, hle⟩
      · cases htime
      · cases he'
      · cases hover.1
      · omega

/-- A search on an inconsistent base has not begun or is over, and nothing was found. -/
structure Barren (origin : MapSearch × σ) (found : List MaximalSubset) (p : MapSearch × σ) :
    Prop where
  found : found = []
  muses : p.1.muses = []
  goes : p.1.exhausted = false → p = origin

/-- The first call ends a search on an inconsistent base, if the backend answers. -/
theorem Barren.leads_next {origin : MapSearch × σ} {E : Failure → MapSearch × σ → Prop}
    (hstarted : origin.1.started = false)
    (hcheck : (cp.satisfiable A origin.1.base).Leads origin.2 (fun r _ => r = false)
      fun _ _ => False)
    (h : Barren origin found (M, st)) (hex : M.exhausted = false) :
    (next? A T sat cp fuel).Leads (M, st)
      (Yields (Barren origin) found) (Failure.Either (fun _ => Barren origin found) E) := by
  obtain ⟨hfound, hmuses, hbegin⟩ := h
  obtain rfl := hbegin hex
  have hst : M.started = false := hstarted
  simp only [next?, consistentBase, Action.leads_bind, Procedure.leads_own, hex, hst,
    Bool.false_eq_true, if_false, Procedure.leads_update, Procedure.leads_callWith]
  apply hcheck.mono
  · rintro r t rfl
    exact ⟨⟨hfound, hmuses, fun hgoes => Bool.noConfusion hgoes⟩, rfl⟩
  · exact fun _ _ hno => hno.elim

/-- A search loses nothing by calls that end in an error, as long as the base is consistent or
the backend answers when the base is looked into. -/
theorem calls_persevere (hsat : sat.Lawful issued Errs) (hcp : cp.Lawful dom Errs)
    (hkeeps : cp.Keeps issued) (hA : A.Built) {bias base known : Network} (hbias : bias.Closed A)
    (hbase : base.Closed A) (hknown : known.Closed A) (growth : Growth) (deadline : Limit)
    (hT : T.Assigns issued st (bias.constraints.diff base.constraints)) {given : List Network}
    (hgiven : ∀ N ∈ given, N.constraints ⊆ bias.constraints.diff base.constraints ∧
      ¬ (((Network.ofScope bias.scope).union base).union known).Admits A dom N.constraints)
    {K : ClauseStore} (hK : given.foldlM (Contradiction.record T) ClauseStore.empty = .ok K)
    (hfuel : 2 ^ (bias.constraints.diff base.constraints).size < fuel)
    (hbegun : (((Network.ofScope bias.scope).union base).union known).Satisfiable A dom ∨
      (cp.satisfiable A (((Network.ofScope bias.scope).union base).union known)).Leads st
        (fun _ _ => True) fun _ _ => False) (n : Nat) :
    let b := bias.constraints.diff base.constraints
    let whole := ((Network.ofScope bias.scope).union base).union known
    (calls A T sat cp fuel n).Leads ((start bias base known growth deadline).exclude K, st)
      (fun rs p => Perseveres A dom whole b (given.map (·.constraints)) rs p.1)
      (fun f _ => f = .fault .overflow ∧ whole.Overflows A dom b) := by
  intro b whole
  have hclosed : whole.Closed A := ((Network.closed_ofScope A _).union hbase).union hknown
  have hspans : whole.Spans A b := by
    intro c hc
    obtain ⟨hreg, hvars⟩ := hbias c (mem_diff.1 hc).1
    exact ⟨hreg, fun v hv => mem_union.2 (.inl (mem_union.2 (.inl (hvars v hv))))⟩
  have hanswers : cp.Answers (T.Assigns issued · b) dom Errs :=
    hcp.answers_keeping hkeeps fun _ _ h hg => h.grows hg
  have hexplored : Explored T (whole.Admits A dom) b (given.map (·.constraints)) []
      ((start bias base known growth deadline).exclude K) := explored_exclude hgiven hK
  by_cases hsatisfiable : whole.Satisfiable A dom
  · have hstart : Persists issued A dom T whole b (given.map (·.constraints)) []
        ((start bias base known growth deadline).exclude K, st) :=
      ⟨rfl, rfl, hT, hexplored, nofun, nofun⟩
    apply (leads_calls (E := fun f _ => f = .fault .overflow ∧ whole.Overflows A dom b)
      (fun found M st h hex =>
        h.leads_next hsat hanswers hA hclosed hspans hsatisfiable hfuel hex) n hstart).mono
    · exact fun rs p hrs => hrs.1.perseveres (fun hnone => hrs.2 (.inr hnone)) hsatisfiable
    · exact fun _ _ hf => hf
  · -- The backend answers that the base is inconsistent, and the first call is the last one that
    -- does anything.
    have hcheck : (cp.satisfiable A whole).Leads st (fun r _ => r = false) fun _ _ => False := by
      have hanswer := hbegun.resolve_left hsatisfiable
      apply ((hanswers.satisfiable hA hclosed hT).and hanswer).mono
      · exact fun r t hr => Bool.eq_false_iff.2 fun hyes => hsatisfiable (hr.1.2.1 hyes)
      · exact fun _ _ hf => hf.2
    have hstart : Barren ((start bias base known growth deadline).exclude K, st) []
        ((start bias base known growth deadline).exclude K, st) := ⟨rfl, rfl, fun _ => rfl⟩
    apply (leads_calls (E := fun f _ => f = .fault .overflow ∧ whole.Overflows A dom b)
      (fun found M st' h hex => h.leads_next rfl hcheck hex) n hstart).mono
    · exact fun rs p hrs => perseveres_nothing hrs.1.found hrs.1.muses hsatisfiable
    · exact fun _ _ hf => hf

end MapSearch

/-- A constraint backend that runs past its limit at its first calls, as many as are due. -/
def CpBackend.lagging (B : CpBackend (σ × Nat)) : CpBackend (σ × Nat) :=
  { B with
    witness := fun A N => do
      match (← get).2 with
      | 0 => B.witness A N
      | due + 1 => do
        modify fun p => (p.1, due)
        Action.fail .backendTimeout }

theorem CpBackend.Lawful.lagging {B : CpBackend (σ × Nat)} {dom : Ranges}
    (h : B.Lawful dom Errs) : B.lagging.Lawful dom Errs where
  witness := by
    rintro A N ⟨s, due⟩ hA hN
    rw [CpBackend.lagging, Action.leads_bind, Action.leads_get]
    cases due with
    | zero => exact h.witness A N (s, 0) hA hN
    | succ due => exact ⟨.backendTimeout, rfl⟩

theorem CpBackend.Keeps.lagging {B : CpBackend (σ × Nat)} {issued : Issued σ}
    (h : B.Keeps fun p => issued p.1) : B.lagging.Keeps fun p => issued p.1 where
  witness := by
    rintro A N ⟨s, due⟩
    rw [CpBackend.lagging, Action.leads_bind, Action.leads_get]
    cases due with
    | zero => exact h.witness A N (s, 0)
    | succ due => exact .refl issued s
  setLimit := h.setLimit

namespace Exhaustive

/-- The backends that try everything, beside a count of the failures that are due. -/
def counting : Backends (World × Nat) := (backends bits).beside Nat

theorem counting_lawful : counting.Lawful (fun p => issued p.1) bits.Allows Errs :=
  (backends_lawful bits Errs).beside Nat

/-- Two failures go by, one of them when the base is looked into, and then the subsets of a
constraint and its negation are found as if there had been none. -/
theorem calls_persevere_clash :
    let whole := ((Network.ofScope clash.scope).union {}).union {}
    (MapSearch.calls sample table counting.sat counting.cp.lagging 5 6).Leads
      ((MapSearch.start clash {} {} .witness .unbounded).exclude .empty, ([0, 1], 2))
      (fun rs p => MapSearch.Perseveres sample bits.Allows whole
          (clash.constraints.diff IndexSet.empty) [] rs p.1 ∧
        rs.map (·.isOk) = [false, false, true, true, true, true] ∧
        p.1.muses = [clash.constraints])
      (fun _ _ => False) := by
  intro whole
  have hrun : (MapSearch.calls sample table counting.sat counting.cp.lagging 5 6).Leads
      ((MapSearch.start clash {} {} .witness .unbounded).exclude .empty, ([0, 1], 2))
      (fun rs p => rs.map (·.isOk) = [false, false, true, true, true, true] ∧
        p.1.muses = [clash.constraints])
      (fun _ _ => False) := by
    decide +kernel
  have hT : table.Assigns (fun p : World × Nat => issued p.1) ([0, 1], 2)
      (clash.constraints.diff IndexSet.empty) :=
    have htable := assigns_table fun c hc => (mem_diff.1 hc).1
    ⟨htable.literal, htable.apart⟩
  have hgiven : ∀ N ∈ ([] : List Network),
      N.constraints ⊆ clash.constraints.diff IndexSet.empty ∧
        ¬ whole.Admits sample bits.Allows N.constraints := nofun
  have hnone : [].foldlM (Contradiction.record table) ClauseStore.empty = .ok .empty := rfl
  have hfuel : 2 ^ (clash.constraints.diff IndexSet.empty).size < 5 := by decide +kernel
  have hall : ∀ n, (MapSearch.calls sample table counting.sat counting.cp.lagging 5 n).Leads
      ((MapSearch.start clash {} {} .witness .unbounded).exclude .empty, ([0, 1], 2))
      (fun rs p => MapSearch.Perseveres sample bits.Allows whole
        (clash.constraints.diff IndexSet.empty) [] rs p.1)
      (fun f _ => f = .fault .overflow ∧
        whole.Overflows sample bits.Allows (clash.constraints.diff IndexSet.empty)) :=
    MapSearch.calls_persevere counting_lawful.sat counting_lawful.cp.lagging
      counting_lawful.keeps.lagging built_sample closed_clash (closed_nothing _) (closed_nothing _)
      .witness .unbounded hT hgiven hnone hfuel (.inl satisfiable_scope)
  have hsix := hall 6
  -- The calls were run above, and are not to be run again.
  generalize MapSearch.calls sample table counting.sat counting.cp.lagging 5 6 = x at hsix hrun ⊢
  apply (hsix.and hrun).mono
  · exact fun rs p hrs => hrs
  · exact fun f p hf => hf.2

/-- That the base is looked into is noted before the backend answers. The backend fails there,
and so the next call takes an inconsistent base to be consistent, and records the empty set. -/
theorem failure_hides_inconsistency :
    let whole := ((Network.ofScope .empty).union clash).union {}
    ¬ whole.Satisfiable sample bits.Allows ∧
      (MapSearch.calls sample table counting.sat counting.cp.lagging 5 2).Leads
        (MapSearch.start {} clash {} .witness .unbounded, ([0, 1], 1))
        (fun rs p => rs = [.error .backendTimeout, .ok none] ∧ p.1.muses = [.empty])
        (fun _ _ => False) := by
  intro whole
  constructor
  · rintro ⟨f, hwithin, hholds⟩
    have hclash : ∀ c ∈ clash.constraints, sample.Holds f c := fun c hc =>
      hholds c (mem_union.2 (.inl (mem_union.2 (.inr hc))))
    exact not_admits_clash bits.Allows whole ⟨f, hwithin, hholds, hclash⟩
  · decide +kernel

end Exhaustive

end Acquisition
