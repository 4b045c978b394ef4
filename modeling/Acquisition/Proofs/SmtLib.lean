import Acquisition.Proofs.Evaluation
import Acquisition.Proofs.Lookup
import Acquisition.Proofs.Scanning

/-!
# Networks as scripts

The text of a network declares its variables and asserts its constraints. Whether it is a script
hangs on the constraints alone: it is one just if no constant is negative, no disjunction or
conjunction is empty, and no sum is compared. A sign is no part of a numeral, so that `-1` is a
symbol that was never declared.

Where the text is a script, a value of its constants is a query over the scope of the network,
and the script holds on it just if the network accepts the query.
-/
namespace Acquisition

/-! ### Terms that are formulas -/

/-- A comparison of a variable with a variable, or with a constant that is not negative. -/
def Predicate.Plain : Predicate → Prop
  | unary _ _ k _ => 0 ≤ k
  | binary .. => True
  | sum .. => False

namespace Term

mutual

/-- The atomic constraints of the term are plain, and each disjunction and conjunction has a
member. -/
def Plain : Term → Prop
  | atomic p => p.Plain
  | any ts => ts ≠ [] ∧ EachPlain ts
  | all ts => ts ≠ [] ∧ EachPlain ts

def EachPlain : List Term → Prop
  | [] => True
  | t :: ts => t.Plain ∧ EachPlain ts

end

theorem eachPlain_iff {ts : List Term} : EachPlain ts ↔ ∀ t ∈ ts, t.Plain := by
  induction ts with
  | nil => simp [EachPlain]
  | cons t ts ih => simp [EachPlain, ih]

mutual

/-- No sum can leave its word where there is none. -/
theorem Plain.eval_ne_error {g : Var → Option Value} {e : Fault} {t : Term} (h : t.Plain) :
    t.eval g ≠ .error e := by
  intro he
  cases t with
  | atomic p =>
    have hspills := spills_of_evalPredicate he
    cases p with
    | unary | binary => exact hspills
    | sum => exact h
  | any ts =>
    rw [eval, evalAny_eq] at he
    exact EachPlain.error_notMem h.2 (Verdict.disjoin_eq_error he)
  | all ts =>
    rw [eval, evalAll_eq] at he
    exact EachPlain.error_notMem h.2 (Verdict.conjoin_eq_error he)

theorem EachPlain.error_notMem {g : Var → Option Value} {e : Fault} {ts : List Term}
    (h : EachPlain ts) : .error e ∉ ts.map fun t => t.eval g := by
  cases ts with
  | nil => simp
  | cons t ts =>
    rw [List.map_cons, List.mem_cons, not_or]
    exact ⟨fun he => Plain.eval_ne_error h.1 he.symm, EachPlain.error_notMem h.2⟩

end

end Term

namespace SmtLib

open Predicate (varName)

variable {vs : List Var} {v : Var} {w head : String} {declared : List String} {e : Sexp}
  {es : List Sexp} {t : Term} {ts : List Term} {m : Model}

/-! ### Integers -/

theorem numeral?_eq_none {c : Char} (hc : c ∈ w.toList) (h : c.isDigit = false) :
    numeral? w = none := by
  have hall : w.toList.all Char.isDigit = false :=
    List.all_eq_false.2 ⟨c, hc, by simp [h]⟩
  rw [numeral?, isNumeral, hall]
  rfl

/-- The first digit of a positive number is not 0. -/
theorem head_toDigits {n : Nat} (h : 0 < n) :
    ∃ c cs, Nat.toDigits 10 n = c :: cs ∧ c ≠ '0' := by
  induction n using Nat.strongRecOn with
  | _ n ih =>
    by_cases hn : n < 10
    · have hdigit : ∀ n < 10, 0 < n → n.digitChar ≠ '0' := by decide
      rw [Nat.toDigits_of_lt_base hn]
      exact ⟨n.digitChar, [], rfl, hdigit n hn h⟩
    · obtain ⟨c, cs, hdigits, hc⟩ := ih (n / 10) (by omega) (by omega)
      rw [Nat.toDigits_of_base_le (by decide) (by omega), hdigits]
      exact ⟨c, _, rfl, hc⟩

theorem numeral?_repr (n : Nat) : numeral? n.repr = some n := by
  have hnumeral : isNumeral n.repr = true := by
    rw [isNumeral, Bool.and_eq_true, Bool.or_eq_true]
    refine ⟨List.all_eq_true.2 fun c hc => isDigit_of_mem_repr hc, ?_⟩
    rcases Nat.eq_zero_or_pos n with rfl | hn
    · exact .inl (by decide)
    · obtain ⟨c, cs, hdigits, hc⟩ := head_toDigits hn
      right
      rw [Nat.toList_repr, hdigits]
      simpa using hc
  rw [numeral?, hnumeral, if_pos rfl, Nat.toList_repr, Nat.ofDigitChars_ten_toDigits]

theorem toList_varName (v : Var) : (varName v).toList = 'x' :: v.repr.toList := by
  rw [varName, String.toList_append]
  rfl

theorem varName_injective : Function.Injective varName := by
  intro v v' h
  have hdigits : 'x' :: v.repr.toList = 'x' :: v'.repr.toList := by
    rw [← toList_varName, h, toList_varName]
  exact Nat.repr_inj.1 (String.toList_inj.1 (List.cons.inj hdigits).2)

theorem varName_mem : varName v ∈ vs.map varName ↔ v ∈ vs :=
  List.mem_map_of_injective varName_injective

theorem integer?_var (h : v ∈ vs) :
    integer? (vs.map varName) (.ofVar v) = some (.constant (varName v)) := by
  have hx : 'x' ∈ (varName v).toList := by simp [toList_varName]
  rw [Sexp.ofVar, integer?, numeral?_eq_none hx rfl]
  simp [varName_mem.2 h]

/-- A negative constant has no reading, neither as a numeral nor as a declared symbol. -/
theorem integer?_constant (vs : List Var) (k : Value) :
    integer? (vs.map varName) (.word (toString k)) =
      if 0 ≤ k then some (.numeral k.toNat) else none := by
  change integer? _ (.word k.repr) = _
  rw [integer?, Int.repr_eq_if]
  by_cases hk : 0 ≤ k
  · rw [if_pos hk, if_pos hk, numeral?_repr]
  · have hminus : ("-" ++ (-k).toNat.repr).toList = '-' :: (-k).toNat.repr.toList := by simp
    have hnumeral : numeral? ("-" ++ (-k).toNat.repr) = none :=
      numeral?_eq_none (hminus ▸ List.mem_cons_self) rfl
    have hvar : "-" ++ (-k).toNat.repr ∉ vs.map varName := by
      intro hmem
      obtain ⟨v, -, hv⟩ := List.mem_map.1 hmem
      have hhead : 'x' :: v.repr.toList = '-' :: (-k).toNat.repr.toList := by
        rw [← toList_varName, hv, hminus]
      exact absurd (List.cons.inj hhead).1 (by decide)
    rw [if_neg hk, if_neg hk, hnumeral]
    simp [hvar]

/-! ### Formulas -/

theorem connective?_eq_none (h : head ∉ ["and", "or", "not"]) (φs : List Formula) :
    connective? head φs = none := by
  simp only [List.mem_cons, List.not_mem_nil, or_false, not_or] at h
  cases φs <;> simp [connective?, h]

theorem comparison?_eq_none (h : head ∉ ["=", "<", "<=", ">", ">="]) (as : List Integer) :
    comparison? head as = none := by
  simp only [List.mem_cons, List.not_mem_nil, or_false, not_or] at h
  rcases as with _ | ⟨a, _ | ⟨b, _ | ⟨c, as⟩⟩⟩ <;> simp [comparison?, h]

theorem formula?_of_comparison (h : head ∉ ["and", "or", "not"]) :
    formula? declared (.list (.word head :: es)) =
      (integers? declared es).bind (comparison? head) := by
  rw [formula?]
  cases formulas? declared es <;> simp [connective?_eq_none h]

theorem formula?_of_connective (h : head ∉ ["=", "<", "<=", ">", ">="]) :
    formula? declared (.list (.word head :: es)) =
      (formulas? declared es).bind (connective? head) := by
  rw [formula?]
  cases integers? declared es <;> simp [comparison?_eq_none h]

/-- A list has a reading only if its first word is a comparison or a connective. -/
theorem formula?_eq_none (h : head ∉ ["and", "or", "not"])
    (h' : head ∉ ["=", "<", "<=", ">", ">="]) :
    formula? declared (.list (.word head :: es)) = none := by
  rw [formula?_of_comparison h]
  cases integers? declared es <;> simp [comparison?_eq_none h']

/-- The formula of a comparison. -/
def Formula.comparing : Comparison → Integer → Integer → Formula
  | .ne, a, b => .not (.compare .eq a b)
  | op, a, b => .compare op a b

theorem Formula.holds_comparing (op : Comparison) (a b : Integer) :
    (comparing op a b).holds m = op.holds (a.value m) (b.value m) := by
  cases op <;> rfl

theorem formula?_compare (op : Comparison) {x y : Sexp} {a b : Option Integer}
    (ha : integer? declared x = a) (hb : integer? declared y = b) :
    formula? declared (.compare op x y) = a.bind fun a => b.map (Formula.comparing op a) := by
  have hsides : integers? declared [x, y] = a.bind fun a => b.map fun b => [a, b] := by
    rw [integers?, integers?, integers?, ha, hb]
    cases a <;> cases b <;> rfl
  have heq : formula? declared (.list [.word "=", x, y]) =
      a.bind fun a => b.map (Formula.compare .eq a) := by
    rw [formula?_of_comparison (by decide), hsides]
    cases a <;> cases b <;> rfl
  cases op with
  | eq => exact heq
  | ne =>
    rw [Sexp.compare, formula?_of_connective (by decide), formulas?, heq]
    cases a <;> cases b <;> rfl
  | lt | le | gt | ge =>
    rw [Sexp.compare, formula?_of_comparison (by decide), hsides]
    cases a <;> cases b <;> rfl

theorem isSome_connective? (h : head = "or" ∨ head = "and") :
    ((formulas? declared es).bind (connective? head)).isSome ↔
      es ≠ [] ∧ (formulas? declared es).isSome := by
  cases es with
  | nil => simp [formulas?, connective?]
  | cons e es =>
    rw [formulas?]
    cases formula? declared e with
    | none => simp
    | some φ =>
      cases formulas? declared es with
      | none => simp
      | some φs => rcases h with rfl | rfl <;> simp [connective?]

theorem ofTerms_eq_nil : Sexp.ofTerms ts = [] ↔ ts = [] := by
  cases ts <;> simp [Sexp.ofTerms]

theorem formula?_unary (h : v ∈ vs) (op : Comparison) (k : Value) (weight : Nat) :
    formula? (vs.map varName) (.ofPredicate (.unary v op k weight)) =
      if 0 ≤ k then some (.comparing op (.constant (varName v)) (.numeral k.toNat)) else none := by
  rw [Sexp.ofPredicate, formula?_compare op (integer?_var h) (integer?_constant vs k)]
  split <;> rfl

theorem formula?_binary {x y : Var} (hx : x ∈ vs) (hy : y ∈ vs) (op : Comparison)
    (weight : Nat) : formula? (vs.map varName) (.ofPredicate (.binary x y op weight)) =
      some (.comparing op (.constant (varName x)) (.constant (varName y))) :=
  formula?_compare op (integer?_var hx) (integer?_var hy)

theorem formula?_sum (xs : List Var) (op : Comparison) (b : Value) :
    formula? declared (.ofPredicate (.sum xs op b)) = none :=
  formula?_eq_none (by cases op <;> decide) (by cases op <;> decide)

theorem isSome_predicate (p : Predicate) (h : ∀ v ∈ p.vars, v ∈ vs) :
    (formula? (vs.map varName) (.ofPredicate p)).isSome ↔ p.Plain := by
  cases p with
  | unary v op k w =>
    rw [formula?_unary (h v (by simp [Predicate.vars])), Predicate.Plain]
    split <;> simp_all
  | binary x y op w =>
    rw [formula?_binary (h x (by simp [Predicate.vars])) (h y (by simp [Predicate.vars]))]
    simp [Predicate.Plain]
  | sum xs op b => simp [formula?_sum, Predicate.Plain]

mutual

/-- Over its variables a term has a reading just if it is plain. -/
theorem isSome_formula? (t : Term) (h : ∀ v ∈ t.scope, v ∈ vs) :
    (formula? (vs.map varName) (.ofTerm t)).isSome ↔ t.Plain := by
  cases t with
  | atomic p =>
    exact isSome_predicate p fun v hv => h v (IndexSet.mem_ofList.2 hv)
  | any ts =>
    rw [Sexp.ofTerm, formula?_of_connective (by decide), isSome_connective? (.inl rfl),
      isSome_formulas? ts h, ne_eq, ofTerms_eq_nil]
    rfl
  | all ts =>
    rw [Sexp.ofTerm, formula?_of_connective (by decide), isSome_connective? (.inr rfl),
      isSome_formulas? ts h, ne_eq, ofTerms_eq_nil]
    rfl

theorem isSome_formulas? (ts : List Term) (h : ∀ v ∈ Term.scopes ts, v ∈ vs) :
    (formulas? (vs.map varName) (Sexp.ofTerms ts)).isSome ↔ Term.EachPlain ts := by
  cases ts with
  | nil => simp [Sexp.ofTerms, formulas?, Term.EachPlain]
  | cons t ts =>
    rw [Sexp.ofTerms, formulas?, Term.EachPlain,
      ← isSome_formula? t fun v hv => h v (IndexSet.mem_union.2 (.inl hv)),
      ← isSome_formulas? ts fun v hv => h v (IndexSet.mem_union.2 (.inr hv))]
    cases formula? (vs.map varName) (.ofTerm t) <;>
      cases formulas? (vs.map varName) (Sexp.ofTerms ts) <;> simp

end

/-! ### Meaning -/

/-- The values of the variables. -/
def Model.valuation (m : Model) : Valuation := fun v => m (varName v)

/-- The formula holds where the term does. -/
def Formula.Means (φ : Formula) (t : Term) : Prop :=
  ∀ m : Model, φ.holds m = true ↔ t.Holds (Model.valuation m)

theorem someHolds_iff {φs : List Formula} (h : List.Forall₂ Formula.Means φs ts) :
    Formula.someHolds m φs = true ↔ Term.SomeHolds (Model.valuation m) ts := by
  induction h with
  | nil => simp [Formula.someHolds, Term.SomeHolds]
  | cons hφ _ ih => rw [Formula.someHolds, Term.SomeHolds, Bool.or_eq_true, hφ m, ih]

theorem allHold_iff {φs : List Formula} (h : List.Forall₂ Formula.Means φs ts) :
    Formula.allHold m φs = true ↔ Term.EachHolds (Model.valuation m) ts := by
  induction h with
  | nil => simp [Formula.allHold, Term.EachHolds]
  | cons hφ _ ih => rw [Formula.allHold, Term.EachHolds, Bool.and_eq_true, hφ m, ih]

theorem connective?_or {φs : List Formula} {φ : Formula} (h : connective? "or" φs = some φ) :
    φ = .or φs := by
  cases φs <;> simp_all [connective?]

theorem connective?_and {φs : List Formula} {φ : Formula} (h : connective? "and" φs = some φ) :
    φ = .and φs := by
  cases φs <;> simp_all [connective?]

theorem means_predicate (p : Predicate) (h : ∀ v ∈ p.vars, v ∈ vs) {φ : Formula}
    (hφ : formula? (vs.map varName) (.ofPredicate p) = some φ) : φ.Means (.atomic p) := by
  intro m
  cases p with
  | unary v op k w =>
    rw [formula?_unary (h v (by simp [Predicate.vars])), Option.ite_none_right_eq_some] at hφ
    obtain ⟨hk, hφ⟩ := hφ
    rw [← Option.some.inj hφ, Formula.holds_comparing]
    simp [Integer.value, Term.Holds, Predicate.Holds, Model.valuation, hk]
  | binary x y op w =>
    rw [formula?_binary (h x (by simp [Predicate.vars])) (h y (by simp [Predicate.vars]))] at hφ
    rw [← Option.some.inj hφ, Formula.holds_comparing]
    rfl
  | sum xs op b => simp [formula?_sum] at hφ

mutual

theorem means_formula (t : Term) (h : ∀ v ∈ t.scope, v ∈ vs) {φ : Formula}
    (hφ : formula? (vs.map varName) (.ofTerm t) = some φ) : φ.Means t := by
  cases t with
  | atomic p => exact means_predicate p (fun v hv => h v (IndexSet.mem_ofList.2 hv)) hφ
  | any ts =>
    rw [Sexp.ofTerm, formula?_of_connective (by decide), Option.bind_eq_some_iff] at hφ
    obtain ⟨φs, hφs, hφ⟩ := hφ
    obtain rfl := connective?_or hφ
    exact fun m => someHolds_iff (means_formulas ts h hφs)
  | all ts =>
    rw [Sexp.ofTerm, formula?_of_connective (by decide), Option.bind_eq_some_iff] at hφ
    obtain ⟨φs, hφs, hφ⟩ := hφ
    obtain rfl := connective?_and hφ
    exact fun m => allHold_iff (means_formulas ts h hφs)

theorem means_formulas (ts : List Term) (h : ∀ v ∈ Term.scopes ts, v ∈ vs) {φs : List Formula}
    (hφs : formulas? (vs.map varName) (Sexp.ofTerms ts) = some φs) :
    List.Forall₂ Formula.Means φs ts := by
  cases ts with
  | nil =>
    obtain rfl : [] = φs := by simpa [Sexp.ofTerms, formulas?] using hφs
    exact .nil
  | cons t ts =>
    rw [Sexp.ofTerms, formulas?] at hφs
    split at hφs
    · next φ φs' hφ hφs' =>
      obtain rfl : φ :: φs' = φs := by simpa using hφs
      exact .cons (means_formula t (fun v hv => h v (IndexSet.mem_union.2 (.inl hv))) hφ)
        (means_formulas ts (fun v hv => h v (IndexSet.mem_union.2 (.inr hv))) hφs')
    · cases hφs

end

/-! ### Scripts -/

/-- The expression that declares a variable. -/
def declaration (v : Var) : Sexp := .list [.word "declare-const", .ofVar v, .word "Int"]

/-- The expression that asserts a term. -/
def assertion (t : Term) : Sexp := .list [.word "assert", .ofTerm t]

/-- The text that declares some variables and asserts some terms. -/
def scriptText (vs : List Var) (ts : List Term) : String :=
  String.join ((vs.map fun v => listText "declare-const" [varName v, "Int"]) ++
    (ts.map fun t => listText "assert" [t.smt]) |>.map (· ++ "\n"))

theorem scan_scriptText (vs : List Var) (ts : List Term) :
    scan [] [] [] (scriptText vs ts).toList = some (vs.map declaration ++ ts.map assertion) := by
  have hint : Reads "Int" (.word "Int") := Unbroken.reads (by decide)
  have hdeclared : List.Forall₂ Reads (vs.map fun v => listText "declare-const" [varName v, "Int"])
      (vs.map declaration) :=
    reads_map (fun v => .list (by decide) (.cons (reads_var v) (.cons hint .nil))) vs
  have hasserted : List.Forall₂ Reads (ts.map fun t => listText "assert" [t.smt])
      (ts.map assertion) :=
    reads_map (fun t => .list (by decide) (.cons (reads_term t) .nil)) ts
  exact scan_lines (List.rel_append hdeclared hasserted)

/-- A variable is written as a symbol to which no theory gives a meaning. -/
theorem isSymbol_varName (v : Var) :
    isSymbol (varName v) = true ∧ theorySymbols.contains (varName v) = false := by
  constructor
  · have hdigits : ∀ c ∈ v.repr.toList, c.isAlphanum = true := fun c hc => by
      rw [Char.isAlphanum, isDigit_of_mem_repr hc, Bool.or_true]
    have hx : 'x'.isAlphanum = true := by decide
    rw [isSymbol, toList_varName, List.all_cons, hx, Bool.and_eq_true]
    refine ⟨?_, by simp⟩
    rw [Bool.true_or, Bool.true_and, List.all_eq_true]
    exact fun c hc => by rw [hdigits c hc, Bool.true_or]
  · have hother : ∀ w ∈ theorySymbols, w.toList.head? = some 'x' →
        w.toList.tail.all Char.isDigit = false := by decide
    rw [Bool.eq_false_iff, ne_eq, List.contains_iff_mem]
    intro hmem
    have hall : (varName v).toList.tail.all Char.isDigit = true := by
      rw [toList_varName]
      exact List.all_eq_true.2 fun c hc => isDigit_of_mem_repr hc
    have hfalse := hother _ hmem (by rw [toList_varName]; rfl)
    rw [hall] at hfalse
    cases hfalse

theorem foldlM_declarations (vs : List Var) (S : Script)
    (h : (S.declared ++ vs.map varName).Nodup) :
    (vs.map declaration).foldlM Script.command S =
      some { S with declared := S.declared ++ vs.map varName } := by
  induction vs generalizing S with
  | nil => simp
  | cons v vs ih =>
    rw [List.map_cons, List.append_cons] at h
    have hnew : S.declared.contains (varName v) = false := by
      have hdisjoint := (List.nodup_append.1 (List.nodup_append.1 h).1).2.2
      rw [Bool.eq_false_iff, ne_eq, List.contains_iff_mem]
      exact fun hmem => hdisjoint _ hmem _ List.mem_cons_self rfl
    have hstep : S.command (declaration v) =
        some { S with declared := S.declared ++ [varName v] } := by
      rw [declaration, Sexp.ofVar, Script.command, (isSymbol_varName v).1,
        (isSymbol_varName v).2, hnew]
      rfl
    rw [List.map_cons, List.foldlM_cons, hstep, Option.bind_eq_bind, Option.bind_some, ih _ h]
    simp

theorem foldlM_assertions (ts : List Term) (S : Script) :
    (ts.map assertion).foldlM Script.command S =
      (formulas? S.declared (Sexp.ofTerms ts)).map fun φs =>
        { S with assertions := S.assertions ++ φs } := by
  induction ts generalizing S with
  | nil => simp [Sexp.ofTerms, formulas?]
  | cons t ts ih =>
    have hstep : S.command (assertion t) =
        (formula? S.declared (.ofTerm t)).map fun φ =>
          { S with assertions := S.assertions ++ [φ] } := by
      rw [assertion, Script.command, if_pos rfl]
    rw [List.map_cons, List.foldlM_cons, hstep, Sexp.ofTerms, formulas?]
    cases formula? S.declared (.ofTerm t) with
    | none => rfl
    | some φ =>
      rw [Option.map_some, Option.bind_eq_bind, Option.bind_some, ih]
      cases formulas? S.declared (Sexp.ofTerms ts) <;> simp

/-- A text of declarations and assertions is a script when the terms have readings. -/
theorem read_scriptText (h : vs.Nodup) (ts : List Term) :
    Script.read (scriptText vs ts) =
      (formulas? (vs.map varName) (Sexp.ofTerms ts)).map fun φs => ⟨vs.map varName, φs⟩ := by
  have hnodup : (vs.map varName).Nodup := h.map varName_injective
  rw [Script.read, scan_scriptText, Option.bind_eq_bind, Option.bind_some, List.foldlM_append,
    foldlM_declarations vs {} hnodup, Option.bind_eq_bind, Option.bind_some, foldlM_assertions]
  rfl

/-! ### Models -/

/-- The query over a scope with the values that its variables have in a model. -/
def Model.query (m : Model) (scope : IndexSet) : Query :=
  .ofPairs (scope.toList.map fun v => (v, m (varName v)))

theorem pairs_query (m : Model) (scope : IndexSet) :
    (m.query scope).pairs = scope.toList.map fun v => (v, m (varName v)) := by
  have hpairs : Increasing (scope.toList.map fun v => (v, m (varName v))) :=
    List.pairwise_map.2 scope.increasing_toList
  exact Query.pairs_ofPairs hpairs

theorem scope_query (m : Model) (scope : IndexSet) : (m.query scope).scope = scope := by
  have hvars : (m.query scope).vars = scope.toList := by
    rw [Query.vars, pairs_query, List.map_map]
    exact List.map_id _
  apply IndexSet.ext_mem
  intro v
  rw [Query.scope, hvars, IndexSet.mem_ofList, IndexSet.mem_toList']

theorem valuation_query (m : Model) {scope : IndexSet} (h : v ∈ scope) :
    (m.query scope).valuation v = m.valuation v := by
  have hvalue : (m.query scope).valueOf v = some (m (varName v)) := by
    rw [Query.valueOf, Query.lookup_eq_some_iff (m.query scope).increasing.nodup, pairs_query]
    exact List.mem_map_of_mem (IndexSet.mem_toList'.2 h)
  rw [Query.valuation, hvalue]
  rfl

/-- Each query is that of a model. -/
theorem exists_query (q : Query) : ∃ m : Model, (m.query q.scope).pairs = q.pairs := by
  have hvars : q.scope.toList = q.vars :=
    IndexSet.toList_ofList (List.pairwise_map.2 q.increasing)
  refine ⟨Function.extend varName q.valuation 0, ?_⟩
  rw [pairs_query, hvars, Query.vars, List.map_map]
  apply (List.map_congr_left _).trans (List.map_id _)
  intro p hp
  have hvalue : q.valueOf p.1 = some p.2 :=
    (Query.lookup_eq_some_iff q.increasing.nodup).2 hp
  rw [Function.comp_apply, varName_injective.extend_apply, Query.valuation, hvalue]
  rfl

/-- Models have the same query over a scope when its variables have the same values in them. -/
theorem query_eq_iff {m m' : Model} {scope : IndexSet} :
    m.query scope = m'.query scope ↔ ∀ w ∈ scope.toList.map varName, m w = m' w := by
  rw [List.forall_mem_map]
  constructor
  · intro h v hv
    have hscope := IndexSet.mem_toList'.1 hv
    have hvalue : m.valuation v = m'.valuation v := by
      rw [← valuation_query m hscope, h, valuation_query m' hscope]
    exact hvalue
  · intro h
    rw [Model.query, Model.query, List.map_congr_left fun v hv => by rw [h v hv]]

/-- Models of a script are queries over the scope of a network: each query is that of some
model, models of one query agree on the constants, and the script holds on those models whose
queries the network accepts. -/
structure Script.Renders (S : Script) (A : Arena) (N : Network) : Prop where
  declared : S.declared = N.scope.toList.map varName
  covers : ∀ q : Query, q.scope = N.scope → ∃ m : Model, (m.query N.scope).pairs = q.pairs
  separates : ∀ m m' : Model, m.query N.scope = m'.query N.scope ↔ ∀ w ∈ S.declared, m w = m' w
  holds : ∀ m : Model, N.check A (m.query N.scope) = .ok (S.holds m)

/-! ### Networks -/

variable {A : Arena} {N : Network}

theorem smt_eq (h : N.toList.mapM A.term = .ok ts) :
    N.smt A = .ok (scriptText N.scope.toList ts) := by
  have hassertions : (N.toList.mapM fun c => do return "(assert " ++ (← A.smt c) ++ ")\n") =
      (.ok (ts.map fun t => "(assert " ++ t.smt ++ ")\n") : Checked (List String)) := by
    rw [Checked.mapM_eq_ok, List.forall₂_map_right_iff]
    refine (Checked.mapM_eq_ok.1 h).imp fun c t ht => ?_
    rw [Arena.smt, ht]
    rfl
  have hdeclare : ∀ v : Var, listText "declare-const" [varName v, "Int"] ++ "\n" =
      "(declare-const x" ++ toString v ++ " Int)\n" := fun v =>
    String.toList_inj.1 (by simp [listText, varName])
  have hassert : ∀ s : String, listText "assert" [s] ++ "\n" = "(assert " ++ s ++ ")\n" :=
    fun s => String.toList_inj.1 (by simp [listText])
  rw [Network.smt, hassertions, scriptText, List.map_append, List.map_map, List.map_map]
  simp only [Function.comp_def, hdeclare, hassert]
  rfl

theorem scopes_subset (hN : N.Closed A) (h : N.toList.mapM A.term = .ok ts) :
    ∀ v ∈ Term.scopes ts, v ∈ N.scope.toList := by
  intro v hv
  obtain ⟨t, ht, hvt⟩ := Term.contains_scopes.1 hv
  obtain ⟨c, hc, hct⟩ := (Checked.mem_of_mapM h).1 ht
  rw [IndexSet.mem_toList']
  exact (hN c (IndexSet.mem_toList'.1 hc)).2 v ⟨t, hct, hvt⟩

/-- A plain constraint of the network is settled by the query of a model. -/
theorem check_query (hN : N.Closed A) {c : ConstraintId} (hc : c ∈ N.constraints)
    (ht : A.term c = .ok t) (hplain : t.Plain) (m : Model) :
    ∃ b, A.check (m.query N.scope) c = .ok b ∧ (b = true ↔ t.Holds m.valuation) := by
  have hvars : ∀ v ∈ t.scope, v ∈ N.scope := fun v hv => (hN c hc).2 v ⟨t, ht, hv⟩
  have hmeans : A.Holds (m.query N.scope).valuation c ↔ t.Holds m.valuation := by
    rw [← t.holds_congr fun v hv => valuation_query m (hvars v hv)]
    constructor
    · intro h
      obtain ⟨t', ht', hholds⟩ := h
      rwa [Except.ok.inj (ht.symm.trans ht')]
    · exact fun hholds => ⟨t, ht, hholds⟩
  cases hcheck : A.check (m.query N.scope) c with
  | ok b =>
    have hscope : ∀ v, A.Mentions c v → v ∈ (m.query N.scope).scope := fun v hv => by
      rw [scope_query]
      exact (hN c hc).2 v hv
    exact ⟨b, rfl, (Arena.check_eq_ok hcheck hscope).trans hmeans⟩
  | error e =>
    rw [Arena.check, Arena.eval, ht] at hcheck
    change (·.getD true) <$> t.eval (m.query N.scope).valueOf = .error e at hcheck
    cases heval : t.eval (m.query N.scope).valueOf with
    | error e' => exact absurd heval hplain.eval_ne_error
    | ok r =>
      rw [heval] at hcheck
      cases hcheck

theorem allHold_eq (φs : List Formula) : Formula.allHold m φs = φs.all (·.holds m) := by
  induction φs with
  | nil => simp [Formula.allHold]
  | cons φ φs ih => rw [Formula.allHold, List.all_cons, ih]

theorem check_network (hN : N.Closed A) (h : N.toList.mapM A.term = .ok ts)
    (hplain : Term.EachPlain ts) {φs : List Formula} (hφs : List.Forall₂ Formula.Means φs ts)
    (m : Model) : N.check A (m.query N.scope) = .ok (φs.all (·.holds m)) := by
  rw [Term.eachPlain_iff] at hplain
  have hterm : ∀ c ∈ N.constraints, ∃ t ∈ ts, A.term c = .ok t := fun c hc =>
    Checked.mapM_ok_of_mem h (IndexSet.mem_toList'.2 hc)
  cases hcheck : N.check A (m.query N.scope) with
  | error e =>
    obtain ⟨c, hc, herror⟩ := Checked.allM_eq_error hcheck
    have hc' := IndexSet.mem_toList'.1 hc
    obtain ⟨t, ht, hct⟩ := hterm c hc'
    obtain ⟨b, hb, -⟩ := check_query hN hc' hct (hplain t ht) m
    rw [hb] at herror
    cases herror
  | ok b =>
    congr 1
    rw [Bool.eq_iff_iff, ← allHold_eq, allHold_iff hφs, Term.eachHolds_iff,
      Network.check_iff hcheck]
    constructor
    · intro hall t ht
      obtain ⟨c, hc, hct⟩ := (Checked.mem_of_mapM h).1 ht
      have hc' := IndexSet.mem_toList'.1 hc
      obtain ⟨b, hb, hiff⟩ := check_query hN hc' hct (hplain t ht) m
      exact hiff.1 (Except.ok.inj (hb.symm.trans (hall c hc')))
    · intro hall c hc
      obtain ⟨t, ht, hct⟩ := hterm c hc
      obtain ⟨b, hb, hiff⟩ := check_query hN hc hct (hplain t ht) m
      rw [hb, hiff.2 (hall t ht)]

end SmtLib

open SmtLib

/-- The text of a network is a script just if its constraints are plain. Then the models of the
script are the queries over the scope which the network accepts. -/
theorem Network.Closed.smt_means {A : Arena} {N : Network} (h : N.Closed A) :
    ∃ text, N.smt A = .ok text ∧
      ((Script.read text).isSome ↔ ∀ c ∈ N.constraints, ∃ t, A.term c = .ok t ∧ t.Plain) ∧
      ∀ S, Script.read text = some S → S.Renders A N := by
  have hregistered : ∀ c ∈ N.toList, ∃ t, A.term c = .ok t := by
    intro c hc
    obtain ⟨r, hr⟩ := (h c (IndexSet.mem_toList'.1 hc)).1
    exact ⟨r.term, by rw [Arena.term, Arena.place_eq_ok.2 hr]; rfl⟩
  obtain ⟨ts, hts⟩ := Checked.exists_mapM A.term hregistered
  have hvars := scopes_subset h hts
  have hread := read_scriptText (IndexSet.nodup_toList N.scope) ts
  refine ⟨scriptText N.scope.toList ts, smt_eq hts, ?_, ?_⟩
  · rw [hread, Option.isSome_map, isSome_formulas? ts hvars, Term.eachPlain_iff]
    constructor
    · intro hall c hc
      obtain ⟨t, ht, hct⟩ := Checked.mapM_ok_of_mem hts (IndexSet.mem_toList'.2 hc)
      exact ⟨t, hct, hall t ht⟩
    · intro hall t ht
      obtain ⟨c, hc, hct⟩ := (Checked.mem_of_mapM hts).1 ht
      obtain ⟨t', ht', hplain⟩ := hall c (IndexSet.mem_toList'.1 hc)
      rwa [Except.ok.inj (hct.symm.trans ht')]
  · intro S hS
    rw [hread, Option.map_eq_some_iff] at hS
    obtain ⟨φs, hφs, rfl⟩ := hS
    have hplain : Term.EachPlain ts := (isSome_formulas? ts hvars).1 (by rw [hφs]; rfl)
    have hmeans := means_formulas ts hvars hφs
    exact {
      declared := rfl
      covers := fun q hq => hq ▸ exists_query q
      separates := fun m m' => query_eq_iff
      holds := check_network h hts hplain hmeans }

namespace Exhaustive

/-- The negation of a comparison and a disjunction of metas are read. -/
theorem smt_means_layers : ∃ A N text S, Network.Closed A N ∧ Network.smt A N = .ok text ∧
    Script.read text = some S ∧ S.Renders A N := by
  have h : (stack .empty layers).any (fun A =>
      (Network.ofList A .empty [3, 8]).toOption.any fun N =>
        (Network.smt A N).toOption.any fun text => (Script.read text).isSome) = true := by
    decide +kernel
  have hok : ∀ {α : Type} {x : Checked α} {a : α}, x.toOption = some a → x = .ok a := by
    intro α x a hx
    cases x with
    | ok b => exact congrArg Except.ok (Option.some.inj hx)
    | error e => cases hx
  obtain ⟨A, -, hA⟩ := (Option.any_eq_true _ _).1 h
  obtain ⟨N, hN, htext⟩ := (Option.any_eq_true _ _).1 hA
  obtain ⟨text, hsmt, hread⟩ := (Option.any_eq_true _ _).1 htext
  obtain ⟨S, hS⟩ := Option.isSome_iff_exists.1 hread
  have hclosed := Network.closed_ofList (hok hN)
  obtain ⟨text', hsmt', -, hmeans⟩ := hclosed.smt_means
  obtain rfl := Except.ok.inj ((hok hsmt).symm.trans hsmt')
  exact ⟨A, N, text, S, hclosed, hok hsmt, hS, hmeans S hS⟩

/-- That a variable is minus one. -/
def minusOne : Arena := (Arena.empty.add (.unary 0 .eq (-1) 1)).2

/-- The text of a negative constant is no integer, and so the text of its network is no script. -/
theorem negative_unread : minusOne.Built ∧ Network.Closed minusOne ⟨.singleton 0, .singleton 0⟩ ∧
    Network.smt minusOne ⟨.singleton 0, .singleton 0⟩ =
      .ok "(declare-const x0 Int)\n(assert (= x0 -1))\n" ∧
    Script.read "(declare-const x0 Int)\n(assert (= x0 -1))\n" = none ∧
    (Script.read "(declare-const x0 Int)\n(assert (= x0 (- 1)))\n").isSome := by
  have hall : Network.ofList minusOne .empty [0] = .ok ⟨.singleton 0, .singleton 0⟩ := by
    decide +kernel
  refine ⟨.add _ .empty, Network.closed_ofList hall, ?_, ?_, ?_⟩
  · decide +kernel
  · have hread : (Script.read "(declare-const x0 Int)\n(assert (= x0 -1))\n").isNone := by
      decide +kernel
    exact Option.isNone_iff_eq_none.1 hread
  · decide +kernel

end Exhaustive

end Acquisition
