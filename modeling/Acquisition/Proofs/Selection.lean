import Acquisition.Proofs.Clauses

/-!
# Monomial stores and the choice of a pivot

A store is monomial if each of its clauses is a single literal. In a store that is
not, there is a clause of more than one literal, and one of these is chosen as the
pivot. The choice changes marks and nothing else.
-/
namespace Acquisition.ClauseStore

open Checked

theorem isLong_eq_true {c : Clause} : isLong c = true ↔ 1 < c.literals.length :=
  decide_eq_true_iff

theorem isLong_congr {c d : Clause} (h : c.literals = d.literals) : isLong c = isLong d := by
  rw [isLong, isLong, Clause.size, Clause.size, h]

theorem isLong_of_single {c : Clause} {l : Literal} (h : c.literals = [l]) : isLong c = false := by
  rw [isLong, Clause.size, h]
  rfl

/-- Every clause has a literal. -/
def NonEmpty (S : ClauseStore) : Prop := ∀ c ∈ S.clauses, c.literals ≠ []

theorem exists_literal_of_not_isLong {c : Clause} (hc : c.literals ≠ []) (h : isLong c = false) :
    ∃ l, c.literals = [l] := by
  have h' : ¬ 1 < c.literals.length := fun hlt => by
    rw [← isLong_eq_true, h] at hlt
    cases hlt
  match hl : c.literals with
  | [] => exact absurd hl hc
  | [l] => exact ⟨l, rfl⟩
  | _ :: _ :: _ => simp [hl] at h'

theorem isMonomial_go_eq_ok {cs : List Clause} {b : Bool} (h : isMonomial.go cs = .ok b) :
    (b = true → ∀ c ∈ cs, ∃ l, c.literals = [l]) ∧ (b = false → ∃ c ∈ cs, isLong c = true) := by
  induction cs with
  | nil =>
    cases h
    exact ⟨fun _ _ hc => absurd hc List.not_mem_nil, nofun⟩
  | cons c cs ih =>
    rw [isMonomial.go] at h
    split at h
    · cases h
    · next hne =>
      split at h
      · next hle =>
        obtain ⟨ht, hf⟩ := ih h
        refine ⟨fun hb d hd => ?_, fun hb => ?_⟩
        · rcases List.mem_cons.1 hd with rfl | hd
          · refine exists_literal_of_not_isLong (fun e => hne ?_) ?_
            · rw [Clause.isEmpty, e]
              rfl
            · exact decide_eq_false (Nat.not_lt.2 hle)
          · exact ht hb d hd
        · obtain ⟨d, hd, hl⟩ := hf hb
          exact ⟨d, List.mem_cons_of_mem _ hd, hl⟩
      · next hgt =>
        cases h
        exact ⟨nofun, fun _ => ⟨c, List.mem_cons_self, decide_eq_true (Nat.not_le.1 hgt)⟩⟩

theorem isMonomial_eq_ok {S : ClauseStore} {b : Bool} (h : S.isMonomial = .ok b) :
    (b = true → ∀ c ∈ S.clauses, ∃ l, c.literals = [l]) ∧
      (b = false → ∃ c ∈ S.clauses, isLong c = true) := isMonomial_go_eq_ok h

theorem exists_isMonomial {S : ClauseStore} (h : S.NonEmpty) : ∃ b, S.isMonomial = .ok b := by
  have hgo : ∀ cs : List Clause, (∀ c ∈ cs, c.literals ≠ []) →
      ∃ b, isMonomial.go cs = .ok b := by
    intro cs hcs
    induction cs with
    | nil => exact ⟨true, rfl⟩
    | cons c cs ih =>
      have hne : c.isEmpty = false := by
        simpa [Clause.isEmpty] using hcs c List.mem_cons_self
      rw [isMonomial.go, hne]
      by_cases hsize : c.size ≤ 1
      · obtain ⟨b, hb⟩ := ih fun d hd => hcs d (List.mem_cons_of_mem c hd)
        exact ⟨b, by simp [hsize, hb]⟩
      · exact ⟨false, by simp [hsize]⟩
  exact hgo S.clauses h

theorem isMonomial_eq_ok_true {S : ClauseStore} :
    S.isMonomial = .ok true ↔ ∀ c ∈ S.clauses, ∃ l, c.literals = [l] := by
  constructor
  · exact fun h => (isMonomial_eq_ok h).1 rfl
  · intro h
    have hne : S.NonEmpty := by
      intro c hc e
      obtain ⟨l, hl⟩ := h c hc
      rw [e] at hl
      cases hl
    obtain ⟨b, hb⟩ := exists_isMonomial hne
    cases b with
    | true => exact hb
    | false =>
      obtain ⟨c, hc, hlong⟩ := (isMonomial_eq_ok hb).2 rfl
      obtain ⟨l, hl⟩ := h c hc
      rw [isLong_of_single hl] at hlong
      cases hlong

theorem mem_units {S : ClauseStore} {l : Literal} :
    l ∈ S.units ↔ ∃ c ∈ S.clauses, c.literals = [l] := by
  rw [units, List.mem_filterMap]
  refine exists_congr fun c => and_congr_right fun _ => ?_
  split
  · next m hm => simp [hm]
  · next hne => exact iff_of_false nofun fun e => hne l e

theorem requireMonomial_eq_ok {S : ClauseStore} {u : Unit} (h : S.requireMonomial = .ok u) :
    ∀ c ∈ S.clauses, ∃ l, c.literals = [l] := by
  rw [requireMonomial, bind_eq_ok] at h
  obtain ⟨b, hb, h⟩ := h
  cases b with
  | true => exact (isMonomial_eq_ok hb).1 rfl
  | false => cases h

theorem requireMonomial_eq_ok_of {S : ClauseStore} (h : S.isMonomial = .ok true) :
    S.requireMonomial = .ok () := by
  rw [requireMonomial, h]
  rfl

theorem exists_positives {S : ClauseStore} (h : S.isMonomial = .ok true) :
    ∃ cs, S.positives = .ok cs := by
  rw [positives, requireMonomial_eq_ok_of h]
  exact ⟨_, rfl⟩

theorem exists_negatives {S : ClauseStore} (h : S.isMonomial = .ok true) :
    ∃ cs, S.negatives = .ok cs := by
  rw [negatives, requireMonomial_eq_ok_of h]
  exact ⟨_, rfl⟩

theorem positives_eq_ok {S : ClauseStore} {cs : List ConstraintId} (h : S.positives = .ok cs) :
    (∀ c ∈ S.clauses, ∃ l, c.literals = [l]) ∧
      ∀ c, c ∈ cs ↔ ∃ l ∈ S.units, l.negated = false ∧ l.constraint = c := by
  rw [positives, bind_eq_ok] at h
  obtain ⟨u, hu, h⟩ := h
  cases h
  refine ⟨requireMonomial_eq_ok hu, fun c => ?_⟩
  simp [and_assoc]

theorem negatives_eq_ok {S : ClauseStore} {cs : List ConstraintId} (h : S.negatives = .ok cs) :
    ∀ c, c ∈ cs ↔ ∃ l ∈ S.units, l.negated = true ∧ l.constraint = c := by
  rw [negatives, bind_eq_ok] at h
  obtain ⟨u, hu, h⟩ := h
  cases h
  intro c
  simp [and_assoc]

theorem heaviest_eq_ok {A : Arena} {best : Option (ClauseKey × Nat)}
    {es : List (ClauseKey × Clause)} {k? : Option ClauseKey}
    (h : heaviest A best es = .ok k?) :
    (∀ k, k? = some k → (∃ w, best = some (k, w)) ∨ ∃ c, (k, c) ∈ es) ∧
      (k? = none → best = none ∧ es = []) := by
  induction es generalizing best with
  | nil =>
    cases h
    cases best with
    | none => simp
    | some e => exact ⟨fun k hk => .inl ⟨e.2, by cases hk; rfl⟩, nofun⟩
  | cons e es ih =>
    obtain ⟨k, c⟩ := e
    rw [heaviest, bind_eq_ok] at h
    obtain ⟨w, -, h⟩ := h
    obtain ⟨hsome, hnone⟩ := ih h
    refine ⟨fun k' hk' => ?_, fun hn => nomatch (hnone hn).1⟩
    rcases hsome k' hk' with ⟨w', hw'⟩ | ⟨c', hc'⟩
    · rcases best with _ | ⟨b, most⟩
      · cases hw'
        exact .inr ⟨c, List.mem_cons_self⟩
      · dsimp only at hw'
        split at hw'
        · cases hw'
          exact .inl ⟨_, rfl⟩
        · cases hw'
          exact .inr ⟨c, List.mem_cons_self⟩
    · exact .inr ⟨c', List.mem_cons_of_mem _ hc'⟩

theorem selectUnmarked_eq_ok {A : Arena} {how : Selection} {S : ClauseStore}
    {k? : Option ClauseKey} (h : S.selectUnmarked A how = .ok k?) :
    (∀ k, k? = some k → ∃ c, S.get? k = some c ∧ isLong c = true) ∧
      (k? = none → ∀ c ∈ S.clauses, isLong c = true → c.marked = true) := by
  have hmem : ∀ k c, (k, c) ∈ S.entries.filter (fun e => !e.2.marked && isLong e.2) ↔
      S.get? k = some c ∧ c.marked = false ∧ isLong c = true := fun k c => by
    simp [List.mem_filter, mem_entries]
  have hnone : S.entries.filter (fun e => !e.2.marked && isLong e.2) = [] →
      ∀ c ∈ S.clauses, isLong c = true → c.marked = true := fun hnil c hc hlong => by
    obtain ⟨k, hk⟩ := mem_clauses.1 hc
    cases hm : c.marked with
    | true => rfl
    | false => exact absurd ((hmem k c).2 ⟨hk, hm, hlong⟩) (hnil ▸ List.not_mem_nil)
  cases how with
  | firstUnmarked =>
    have e : (S.entries.filter (fun e => !e.2.marked && isLong e.2)).head?.map (·.1) = k? :=
      Except.ok.inj h
    refine ⟨fun k hk => ?_, fun hk => hnone ?_⟩
    · obtain ⟨⟨k', c⟩, hc, hk'⟩ := Option.map_eq_some_iff.1 (e.trans hk)
      cases hk'
      obtain ⟨hc, -, hlong⟩ := (hmem _ c).1 (List.mem_of_head? hc)
      exact ⟨c, hc, hlong⟩
    · exact List.head?_eq_none_iff.1 (Option.map_eq_none_iff.1 (e.trans hk))
  | maxWeight =>
    obtain ⟨hsome, hnil⟩ := heaviest_eq_ok h
    refine ⟨fun k hk => ?_, fun hk => hnone (hnil hk).2⟩
    rcases hsome k hk with ⟨w, hw⟩ | ⟨c, hc⟩
    · cases hw
    · obtain ⟨hc, -, hlong⟩ := (hmem k c).1 hc
      exact ⟨c, hc, hlong⟩

/-- Two stores whose keys find clauses with the same literals. -/
def SameLiterals (S T : ClauseStore) : Prop :=
  ∀ k, (T.get? k).map (·.literals) = (S.get? k).map (·.literals)

theorem SameLiterals.refl (S : ClauseStore) : S.SameLiterals S := fun _ => rfl

theorem SameLiterals.get? {S T : ClauseStore} (h : S.SameLiterals T) {k : ClauseKey} {c : Clause}
    (hk : T.get? k = some c) : ∃ d, S.get? k = some d ∧ d.literals = c.literals := by
  have hk' := h k
  rw [hk] at hk'
  obtain ⟨d, hd, e⟩ := Option.map_eq_some_iff.1 hk'.symm
  exact ⟨d, hd, e⟩

theorem SameLiterals.symm {S T : ClauseStore} (h : S.SameLiterals T) : T.SameLiterals S :=
  fun k => (h k).symm

theorem SameLiterals.mem {S T : ClauseStore} (h : S.SameLiterals T) {c : Clause}
    (hc : c ∈ T.clauses) : ∃ d ∈ S.clauses, d.literals = c.literals := by
  obtain ⟨k, hk⟩ := mem_clauses.1 hc
  obtain ⟨d, hd, e⟩ := h.get? hk
  exact ⟨d, get?_mem hd, e⟩

theorem sameLiterals_unmarkAll (S : ClauseStore) : S.SameLiterals S.unmarkAll := fun k => by
  rw [get?_unmarkAll]
  cases S.get? k <;> rfl

theorem sameLiterals_mark (S : ClauseStore) (k : ClauseKey) : S.SameLiterals (S.mark k) :=
  fun k' => by
    rw [mark, get?_modify]
    split
    · next h =>
      subst h
      cases S.get? k' <;> rfl
    · rfl

theorem Valid.mark {S : ClauseStore} (hS : S.Valid) (k : ClauseKey) : (S.mark k).Valid :=
  hS.modify k _

/-- What a choice comes to: a clause of more than one literal, if there is one. -/
theorem select_eq_ok {A : Arena} {how : Selection} {S T : ClauseStore} {k? : Option ClauseKey}
    (hS : S.Valid) (h : S.select A how = .ok (k?, T)) :
    T.Valid ∧ S.SameLiterals T ∧
      (∀ k, k? = some k → ∃ c, T.get? k = some c ∧ isLong c = true) ∧
      (k? = none → ∀ c ∈ S.clauses, isLong c = false) := by
  rw [select, bind_eq_ok] at h
  obtain ⟨k₁, hk₁, h⟩ := h
  obtain ⟨hsome, hnone⟩ := selectUnmarked_eq_ok hk₁
  cases k₁ with
  | some k =>
    cases h
    exact ⟨hS, .refl S, hsome, nofun⟩
  | none =>
    dsimp only at h
    have hall : S.allMarked = true := by
      rw [allMarked, List.all_eq_true]
      intro c hc
      obtain ⟨hc, hlong⟩ := List.mem_filter.1 hc
      exact hnone rfl c hc hlong
    rw [if_pos hall, bind_eq_ok] at h
    obtain ⟨k₂, hk₂, h⟩ := h
    cases h
    obtain ⟨hsome₂, hnone₂⟩ := selectUnmarked_eq_ok hk₂
    refine ⟨hS.unmarkAll, sameLiterals_unmarkAll S, hsome₂, fun hk c hc => ?_⟩
    obtain ⟨k, hk'⟩ := mem_clauses.1 hc
    have hc' : c.unmark ∈ S.unmarkAll.clauses :=
      get?_mem (k := k) (by rw [get?_unmarkAll, hk']; rfl)
    cases hlong : isLong c with
    | false => rfl
    | true => exact absurd (hnone₂ hk c.unmark hc' hlong) Bool.false_ne_true

end Acquisition.ClauseStore
