import Acquisition.SmtLib
import Acquisition.Constraint.Term
import Mathlib.Data.List.Forall2
import Std.Data.String.ToNat

/-!
# Reading what is written

The text of a term is a list in parentheses, whose parts are texts of that kind or words, with a
blank between two of them. Such a text is read as one expression wherever the next character
ends a word, whatever stands before it. So the expression of a term can be given by recursion
on the term, and an induction on the term shows that it is what its text is read as.
-/
namespace Acquisition.SmtLib

variable {c : Char} {cs : List Char} {e : Sexp} {es es' : List Sexp} {outer : List (List Sexp)}
  {s w : String} {ss : List String}

/-! ### Words -/

/-- Some characters that are not within a word: none, or such that a word ends before them. -/
def Breaks : List Char → Prop
  | [] => True
  | c :: _ => isBreak c

/-- A word that is read as such: it is not empty, and does not end before its end. -/
def Unbroken (w : String) : Prop := w.toList ≠ [] ∧ w.toList.all (fun c => !isBreak c) = true

instance (w : String) : Decidable (Unbroken w) := inferInstanceAs (Decidable (_ ∧ _))

theorem Unbroken.runs (h : Unbroken w) : ∀ c ∈ w.toList, isBreak c = false := by
  simpa using List.all_eq_true.1 h.2

theorem endWord_nil (es : List Sexp) : endWord es [] = es := rfl

theorem scan_open (w : List Char) :
    scan outer es w ('(' :: cs) = scan (endWord es w :: outer) [] [] cs := by
  cases outer <;> rfl

theorem scan_close (up : List Sexp) (w : List Char) :
    scan (up :: outer) es w (')' :: cs) = scan outer (up ++ [.list (endWord es w)]) [] cs := rfl

theorem scan_blank (w : List Char) (h : isBlank c) :
    scan outer es w (c :: cs) = scan outer (endWord es w) [] cs := by
  have hopen : c ≠ '(' := fun hc => by subst hc; cases h
  have hclose : c ≠ ')' := fun hc => by subst hc; cases h
  cases outer <;> simp only [scan, hopen, hclose, h, if_true, if_false]

theorem scan_within (w : List Char) (h : isBreak c = false) :
    scan outer es w (c :: cs) = scan outer es (w ++ [c]) cs := by
  obtain ⟨hopen, hclose, hblank⟩ : c ≠ '(' ∧ c ≠ ')' ∧ isBlank c = false := by
    simpa [isBreak, and_assoc] using h
  cases outer <;> simp only [scan, hopen, hclose, hblank, if_false, Bool.false_eq_true]

theorem scan_run (w : List Char) {ds : List Char} (h : ∀ c ∈ ds, isBreak c = false) :
    scan outer es w (ds ++ cs) = scan outer es (w ++ ds) cs := by
  induction ds generalizing w with
  | nil => simp
  | cons d ds ih =>
    rw [List.forall_mem_cons] at h
    rw [List.cons_append, scan_within w h.1, ih (w ++ [d]) h.2, List.append_assoc]
    rfl

theorem scan_endWord {w : List Char} (h : Breaks cs) :
    scan outer es w cs = scan outer (endWord es w) [] cs := by
  cases cs with
  | nil => rfl
  | cons c cs =>
    have hc : c = '(' ∨ c = ')' ∨ isBlank c = true := by simpa [Breaks, isBreak, or_assoc] using h
    rcases hc with rfl | rfl | hc
    · rw [scan_open, scan_open]
      rfl
    · cases outer <;> rfl
    · rw [scan_blank w hc, scan_blank [] hc]
      rfl

/-- A text of one expression, wherever it stands. -/
def Reads (s : String) (e : Sexp) : Prop :=
  ∀ outer es cs, Breaks cs →
    scan outer es [] (s.toList ++ cs) = scan outer (es ++ [e]) [] cs

theorem Unbroken.reads (h : Unbroken w) : Reads w (.word w) := by
  intro outer es cs hcs
  have hend : endWord es w.toList = es ++ [.word w] := by
    rw [endWord, List.isEmpty_eq_false_iff.2 h.1, if_neg Bool.false_ne_true,
      String.ofList_toList]
  rw [scan_run [] h.runs, List.nil_append, scan_endWord hcs, hend]

/-- Texts of one kind beside each other. -/
theorem reads_map {α : Type} {text : α → String} {expression : α → Sexp}
    (h : ∀ a, Reads (text a) (expression a)) (as : List α) :
    List.Forall₂ Reads (as.map text) (as.map expression) := by
  induction as with
  | nil => exact .nil
  | cons a as ih => exact .cons (h a) ih

/-! ### Lists -/

/-- The text of a list: its first word, then its other parts. -/
def listText (head : String) (parts : List String) : String :=
  "(" ++ head ++ " " ++ " ".intercalate parts ++ ")"

theorem breaks_blank (cs : List Char) : Breaks (' ' :: cs) := rfl

theorem breaks_close (cs : List Char) : Breaks (')' :: cs) := rfl

theorem breaks_newline (cs : List Char) : Breaks ('\n' :: cs) := rfl

theorem scan_parts (h : List.Forall₂ Reads ss es') (hcs : Breaks cs) :
    scan outer es [] ((" ".intercalate ss).toList ++ cs) = scan outer (es ++ es') [] cs := by
  induction h generalizing es with
  | nil => simp
  | @cons s e ss es' hs hss ih =>
    cases hss with
    | nil => simpa using hs outer es cs hcs
    | cons _ _ =>
      rw [String.intercalate_cons_cons, String.toList_append, String.toList_append,
        List.append_assoc, List.append_assoc]
      change scan outer es [] (s.toList ++ ' ' :: (_ ++ cs)) = _
      rw [hs _ _ _ (breaks_blank _), scan_blank [] rfl, endWord_nil, ih, List.append_assoc]
      rfl

theorem Reads.list {head : String} (hhead : Unbroken head) (h : List.Forall₂ Reads ss es') :
    Reads (listText head ss) (.list (.word head :: es')) := by
  intro outer es cs _
  have htext : (listText head ss).toList ++ cs =
      '(' :: (head.toList ++ ' ' :: ((" ".intercalate ss).toList ++ ')' :: cs)) := by
    simp [listText]
  rw [htext, scan_open, hhead.reads _ _ _ (breaks_blank _), scan_blank [] rfl, endWord_nil,
    scan_parts h (breaks_close _), scan_close]
  rfl

/-- A text of lines, each of them an expression. -/
theorem scan_lines (h : List.Forall₂ Reads ss es') :
    scan [] es [] ((String.join (ss.map (· ++ "\n"))).toList) = some (es ++ es') := by
  induction h generalizing es with
  | nil => simp [scan, endWord]
  | @cons s e ss es' hs _ ih =>
    have htext : (String.join ((s :: ss).map (· ++ "\n"))).toList =
        s.toList ++ '\n' :: (String.join (ss.map (· ++ "\n"))).toList := by
      simp
    rw [htext, hs _ _ _ (breaks_newline _), scan_blank [] rfl, endWord_nil, ih, List.append_assoc]
    rfl

/-! ### Terms -/

theorem isBreak_of_isDigit (h : c.isDigit) : isBreak c = false := by
  rw [Bool.eq_false_iff]
  intro hbreak
  simp only [isBreak, isBlank, Bool.or_eq_true, beq_iff_eq] at hbreak
  rcases hbreak with (rfl | rfl) | ((rfl | rfl) | rfl) | rfl <;> cases h

theorem isDigit_of_mem_repr {n : Nat} (h : c ∈ n.repr.toList) : c.isDigit := by
  rw [Nat.toList_repr] at h
  exact Nat.isDigit_of_mem_toDigits (by decide) (by decide) h

theorem repr_nonempty (n : Nat) : n.repr.toList ≠ [] := by
  rw [Nat.toList_repr]
  exact Nat.toDigits_ne_nil

theorem unbroken_repr (n : Nat) : Unbroken n.repr := by
  refine ⟨repr_nonempty n, List.all_eq_true.2 fun c hc => ?_⟩
  rw [isBreak_of_isDigit (isDigit_of_mem_repr hc)]
  rfl

theorem unbroken_append (h : Unbroken w) (n : Nat) : Unbroken (w ++ n.repr) := by
  constructor
  · simp [h.1]
  · rw [String.toList_append, List.all_append, h.2, (unbroken_repr n).2]
    rfl

theorem unbroken_varName (v : Var) : Unbroken (Predicate.varName v) :=
  unbroken_append (by decide) v

theorem unbroken_constant (k : Value) : Unbroken (toString k) := by
  change Unbroken k.repr
  rw [Int.repr_eq_if]
  split
  · exact unbroken_repr _
  · exact unbroken_append (by decide) _

theorem unbroken_name (op : Comparison) : Unbroken op.name := by
  cases op <;> decide

namespace Sexp

/-- The expression of a comparison. -/
def compare : Comparison → Sexp → Sexp → Sexp
  | .eq, a, b => .list [.word "=", a, b]
  | .ne, a, b => .list [.word "not", .list [.word "=", a, b]]
  | .lt, a, b => .list [.word "<", a, b]
  | .le, a, b => .list [.word "<=", a, b]
  | .gt, a, b => .list [.word ">", a, b]
  | .ge, a, b => .list [.word ">=", a, b]

def ofVar (v : Var) : Sexp := .word (Predicate.varName v)

def ofPredicate : Predicate → Sexp
  | .unary v op k _ => compare op (ofVar v) (.word (toString k))
  | .binary x y op _ => compare op (ofVar x) (ofVar y)
  | .sum vs op b =>
    .list [.word op.name, .list (.word "+" :: vs.map ofVar), .word (toString b)]

mutual

def ofTerm : Term → Sexp
  | .atomic p => ofPredicate p
  | .any ts => .list (.word "or" :: ofTerms ts)
  | .all ts => .list (.word "and" :: ofTerms ts)

def ofTerms : List Term → List Sexp
  | [] => []
  | t :: ts => ofTerm t :: ofTerms ts

end

end Sexp

theorem reads_var (v : Var) : Reads (Predicate.varName v) (.ofVar v) := (unbroken_varName v).reads

theorem listText_pair (head a b : String) :
    listText head [a, b] = "(" ++ head ++ " " ++ a ++ " " ++ b ++ ")" := by
  simp [listText, String.append_assoc]

theorem Reads.compare {a b : String} {x y : Sexp} (ha : Reads a x) (hb : Reads b y)
    (op : Comparison) : Reads (op.smt a b) (.compare op x y) := by
  have hlist : ∀ head, Unbroken head →
      Reads ("(" ++ head ++ " " ++ a ++ " " ++ b ++ ")") (.list [.word head, x, y]) :=
    fun head hhead => listText_pair head a b ▸ .list hhead (.cons ha (.cons hb .nil))
  cases op with
  | ne =>
    have htext : Comparison.ne.smt a b =
        listText "not" ["(" ++ "=" ++ " " ++ a ++ " " ++ b ++ ")"] :=
      String.toList_inj.1 (by simp [Comparison.smt, listText])
    exact htext ▸ .list (by decide) (.cons (hlist "=" (by decide)) .nil)
  | eq => exact hlist "=" (by decide)
  | lt => exact hlist "<" (by decide)
  | le => exact hlist "<=" (by decide)
  | gt => exact hlist ">" (by decide)
  | ge => exact hlist ">=" (by decide)

theorem sum_smt (vs : List Var) (op : Comparison) (b : Value) :
    (Predicate.sum vs op b).smt =
      listText op.name [listText "+" (vs.map Predicate.varName), toString b] :=
  String.toList_inj.1 (by simp [Predicate.smt, listText])

theorem reads_predicate (p : Predicate) : Reads p.smt (.ofPredicate p) := by
  cases p with
  | unary v op k w => exact Reads.compare (reads_var v) (unbroken_constant k).reads op
  | binary x y op w => exact Reads.compare (reads_var x) (reads_var y) op
  | sum vs op b =>
    rw [sum_smt]
    exact .list (unbroken_name op) (.cons (.list (by decide) (reads_map reads_var vs))
      (.cons (unbroken_constant b).reads .nil))

theorem any_smt (ts : List Term) : (Term.any ts).smt = listText "or" (Term.smts ts) := by
  simp [Term.smt, listText]

theorem all_smt (ts : List Term) : (Term.all ts).smt = listText "and" (Term.smts ts) := by
  simp [Term.smt, listText]

mutual

/-- The text of a term is a text of one expression. -/
theorem reads_term (t : Term) : Reads t.smt (.ofTerm t) := by
  cases t with
  | atomic p => exact reads_predicate p
  | any ts => exact any_smt ts ▸ .list (by decide) (reads_terms ts)
  | all ts => exact all_smt ts ▸ .list (by decide) (reads_terms ts)

theorem reads_terms (ts : List Term) : List.Forall₂ Reads (Term.smts ts) (Sexp.ofTerms ts) := by
  cases ts with
  | nil => exact .nil
  | cons t ts => exact .cons (reads_term t) (reads_terms ts)

end

end Acquisition.SmtLib
