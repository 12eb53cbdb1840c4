import Mathlib.Algebra.Ring.Int.Defs
import Mathlib.Algebra.Ring.Nat
import ShaderPass.ConstExpr.Eval

/-! The grammar of constant expressions and the strict evaluation of its trees. Reading lexemes from
left to right finds the tree that the grammar derives, and its value. -/
namespace ShaderPass.ConstExpr

inductive Sign where
  | not
  | minus
  | plus
  deriving Repr, DecidableEq

def Sign.op : Sign → Op
  | not => .not
  | minus => .sub
  | plus => .add

inductive Tree where
  | literal (n : Nat)
  | version
  | signed (s : Sign) (operand : Tree)
  | binary (o : Op) (left right : Tree)
  deriving Repr, DecidableEq

def Op.level? : Op → Option Nat
  | .or => some 0
  | .and => some 1
  | .eq | .ne => some 2
  | .le | .ge | .lt | .gt => some 3
  | .add | .sub => some 4
  | .mul | .div | .rem => some 5
  | .not | .opening | .closing => none

/-- The lexemes that a level derives, with their tree. Below level six the operators of the level
associate to the left, level six has the operators in front of an operand, and level seven the
operands. -/
inductive Derives : Nat → List Lexeme → Tree → Prop where
  | binary {k : Nat} {o : Op} {ts us : List Lexeme} {l r : Tree} (level : o.level? = some k)
    (left : Derives k ts l) (right : Derives (k + 1) us r) :
    Derives k (ts ++ .op o :: us) (.binary o l r)
  | tighter {k : Nat} {ts : List Lexeme} {e : Tree} (inner : Derives (k + 1) ts e) : Derives k ts e
  | signed (s : Sign) {ts : List Lexeme} {e : Tree} (operand : Derives 6 ts e) :
    Derives 6 (.op s.op :: ts) (.signed s e)
  | literal (n : Nat) : Derives 7 [.int n] (.literal n)
  | version : Derives 7 [.ident versionIdent] .version
  | group {ts : List Lexeme} {e : Tree} (inner : Derives 0 ts e) :
    Derives 7 (.op .opening :: (ts ++ [.op .closing])) e

def Sign.result (s : Sign) (a : Int) : Int :=
  match s with
  | not => if a = 0 then 1 else 0
  | minus => -a
  | plus => a

def Op.result (o : Op) (a b : Int) : Int :=
  match o with
  | .or => if a ≠ 0 ∨ b ≠ 0 then 1 else 0
  | .and => if a ≠ 0 ∧ b ≠ 0 then 1 else 0
  | .eq => if a = b then 1 else 0
  | .ne => if a ≠ b then 1 else 0
  | .le => if a ≤ b then 1 else 0
  | .ge => if b ≤ a then 1 else 0
  | .lt => if a < b then 1 else 0
  | .gt => if b < a then 1 else 0
  | .add => a + b
  | .sub => a - b
  | .mul => a * b
  | .div => a.tdiv b
  | .rem => a.tmod b
  | .not | .opening | .closing => 0

def Fits (n : Int) : Prop :=
  -2 ^ 63 ≤ n ∧ n < 2 ^ 63

/-- Whether a binary operator applies: no divisor is zero, and the least integer leaves no remainder
by minus one. -/
def Op.Applies (o : Op) (a b : Int) : Prop :=
  (o = .div ∨ o = .rem → b ≠ 0) ∧ ¬(o = .rem ∧ a = -2 ^ 63 ∧ b = -1)

/-- Strict evaluation over the integers, in which every literal and every result fits. The version has
a value only if one is given. -/
inductive Evaluates (version : Option Int64) : Tree → Int → Prop where
  | literal {n : Nat} (fits : Fits n) : Evaluates version (.literal n) n
  | version {v : Int64} (given : version = some v) : Evaluates version .version v.toInt
  | signed {s : Sign} {e : Tree} {a : Int} (operand : Evaluates version e a)
    (fits : Fits (s.result a)) : Evaluates version (.signed s e) (s.result a)
  | binary {o : Op} {l r : Tree} {a b : Int} (left : Evaluates version l a)
    (right : Evaluates version r b) (applies : o.Applies a b) (fits : Fits (o.result a b)) :
    Evaluates version (.binary o l r) (o.result a b)

theorem fitsSigned_iff {n : Int} : fitsSigned n = true ↔ Fits n := by
  simp [fitsSigned, Fits]

theorem Evaluates.fits {version : Option Int64} {e : Tree} {v : Int} (h : Evaluates version e v) :
    Fits v := by
  cases h with
  | literal fits => exact fits
  | version given => exact ⟨Int64.le_toInt _, Int64.toInt_lt _⟩
  | signed _ fits => exact fits
  | binary _ _ _ fits => exact fits

theorem fits_truth (b : Bool) : Fits (truth b) := by
  cases b <;> exact ⟨by decide, by decide⟩

theorem bind_eq_ok_iff {ε α β : Type} {x : Except ε α} {f : α → Except ε β} {b : β} :
    x >>= f = .ok b ↔ ∃ a, x = .ok a ∧ f a = .ok b := by
  cases x <;> simp [bind, Except.bind]

theorem inRange_eq_ok_iff {n v : Int} : inRange n = .ok v ↔ Fits n ∧ n = v := by
  unfold inRange
  by_cases fits : fitsSigned n = true
  · simp [fits, fitsSigned_iff.1 fits]
  · simp [fits, mt fitsSigned_iff.2 fits]

theorem natAbs_le_of_fits {n : Int} (h : Fits n) : n.natAbs ≤ 2 ^ 63 := by
  obtain ⟨low, high⟩ := h
  omega

theorem fits_tdiv_iff {a b : Int} (ha : Fits a) (hb : b ≠ 0) :
    Fits (a.tdiv b) ↔ ¬(a = -2 ^ 63 ∧ b = -1) := by
  have small := natAbs_le_of_fits ha
  have size := Int.natAbs_tdiv a b
  by_cases unit : b = -1
  · subst unit
    obtain ⟨low, high⟩ := ha
    rw [Int.tdiv_neg, Int.tdiv_one]
    unfold Fits
    omega
  · by_cases one : b = 1
    · subst one
      rw [Int.tdiv_one]
      simp [ha]
    · have half : a.natAbs / b.natAbs ≤ a.natAbs / 2 :=
        Nat.div_le_div_left (by omega) (by decide)
      have : (a.tdiv b).natAbs ≤ 2 ^ 62 := by
        rw [size]
        exact Nat.le_trans half (Nat.div_le_of_le_mul small)
      unfold Fits
      omega

theorem fits_tmod {a b : Int} (hb : Fits b) (divisor : b ≠ 0) : Fits (a.tmod b) := by
  have small := natAbs_le_of_fits hb
  have size := Int.natAbs_tmod a b
  have less : a.natAbs % b.natAbs < b.natAbs := Nat.mod_lt _ (by omega)
  unfold Fits
  omega

theorem truth_decide (p : Prop) [Decidable p] : truth (decide p) = if p then 1 else 0 := by
  by_cases h : p <;> simp [truth, h]

theorem fits_ite (p : Prop) [Decidable p] : Fits (if p then 1 else 0) := by
  rw [← truth_decide]
  exact fits_truth _

theorem quotient_eq_ok_iff {part : Int → Int → Int} {a b v : Int} :
    quotient part a b = .ok v ↔ b ≠ 0 ∧ Fits (a.tdiv b) ∧ part a b = v := by
  unfold quotient
  by_cases zero : b = 0
  · simp [zero]
  · by_cases fits : fitsSigned (a.tdiv b) = true
    · simp [zero, fits, fitsSigned_iff.1 fits]
    · simp [zero, fits, mt fitsSigned_iff.2 fits]

/-- A binary operator gives its result over the unbounded integers where it applies and the result
fits, and no result elsewhere. -/
theorem apply_eq_ok_iff {o : Op} {k : Nat} (level : o.level? = some k) {a b v : Int} (ha : Fits a)
    (hb : Fits b) : o.apply a b = .ok v ↔ o.Applies a b ∧ Fits (o.result a b) ∧ o.result a b = v := by
  cases o with
  | not | opening | closing => cases level
  | or | and | eq | ne | le | ge | lt | gt =>
    simp only [Op.apply, ← Bool.decide_or, ← Bool.decide_and, truth_decide, Op.result, Op.Applies,
      fits_ite, Except.ok.injEq]
    simp
  | add | sub | mul => simp [Op.apply, Op.result, Op.Applies, inRange_eq_ok_iff]
  | div => simp [Op.apply, Op.result, Op.Applies, quotient_eq_ok_iff]
  | rem =>
    simp only [Op.apply, Op.result, Op.Applies, quotient_eq_ok_iff, reduceCtorEq, or_true, true_and,
      true_implies]
    constructor
    · rintro ⟨divisor, fits, rfl⟩
      have := (fits_tdiv_iff ha divisor).1 fits
      exact ⟨⟨divisor, this⟩, fits_tmod hb divisor, rfl⟩
    · rintro ⟨⟨divisor, least⟩, -, rfl⟩
      exact ⟨divisor, (fits_tdiv_iff ha divisor).2 fun h => least h, rfl⟩

theorem mem_tier_iff {k : Nat} {tier : List Op} {tighter : List (List Op)}
    (at_level : tier :: tighter = levels.drop k) {o : Op} : o ∈ tier ↔ o.level? = some k := by
  match k with
  | 0 | 1 | 2 | 3 | 4 | 5 =>
    simp only [levels, List.drop_zero, List.drop_succ_cons, List.cons.injEq] at at_level
    obtain ⟨rfl, rfl⟩ := at_level
    cases o <;> decide
  | k + 6 => simp [levels] at at_level

theorem tighter_eq_drop {k : Nat} {tier : List Op} {tighter : List (List Op)}
    (at_level : tier :: tighter = levels.drop k) : tighter = levels.drop (k + 1) := by
  rw [← List.tail_drop, ← at_level, List.tail_cons]

theorem le_five_of_tier {k : Nat} {tier : List Op} {tighter : List (List Op)}
    (at_level : tier :: tighter = levels.drop k) : k ≤ 5 := by
  have size := congrArg List.length at_level
  simp [levels] at size
  omega

theorem six_le_of_no_tier {k : Nat} (at_level : [] = levels.drop k) : 6 ≤ k := by
  have size := congrArg List.length at_level
  simp [levels] at size
  omega

end ShaderPass.ConstExpr
