import CSystems.ExpressionTree.Print
import CSystems.Lib.Bytes

open clib.cint clib.string clib.token

namespace csystems.expression_tree

inductive operator_t
  | plus
  | minus
  | times
  | divide
  | greater
  | less
  | equal
  | and
  | or
  deriving DecidableEq, Repr

namespace operator_t

/-- The string that `evaluate` compares with. -/
def text : operator_t → List UInt8
  | plus => [43]
  | minus => [45]
  | times => [42]
  | divide => [47]
  | greater => [62]
  | less => [60]
  | equal => [61]
  | and => [38]
  | or => [124]

end operator_t

/-- The value of a condition. -/
def truth (p : Prop) [Decidable p] : Int := if p then 1 else 0

/-- `evaluate`; `none` where C leaves the result undefined, on a division by zero or
outside of `int`. -/
def evaluate : Node → Option Int
  | .nil => some 0
  | .node data left right =>
    if isdigit (data.chars.headD 0) then some (atoi data.chars).toInt
    else do
      let left ← evaluate left
      let right ← evaluate right
      if strcmp data.chars operator_t.plus.text = 0 then int (left + right)
      else if strcmp data.chars operator_t.minus.text = 0 then int (left - right)
      else if strcmp data.chars operator_t.times.text = 0 then int (left * right)
      else if strcmp data.chars operator_t.divide.text = 0 then if right = 0 then none else int (left.tdiv right)
      else if strcmp data.chars operator_t.greater.text = 0 then some (truth (left > right))
      else if strcmp data.chars operator_t.less.text = 0 then some (truth (left < right))
      else if strcmp data.chars operator_t.equal.text = 0 then some (truth (left = right))
      else if strcmp data.chars operator_t.and.text = 0 then some (truth (left ≠ 0 ∧ right ≠ 0))
      else if strcmp data.chars operator_t.or.text = 0 then some (truth (left ≠ 0 ∨ right ≠ 0))
      else some 0

/-- A decimal literal of at most 9 characters. -/
structure Literal where
  negative : Bool
  digits : List UInt8
  nonempty : digits ≠ []
  decimal : ∀ c ∈ digits, isdigit c = true
  short : negative.toNat + digits.length ≤ 9

namespace Literal

def chars (l : Literal) : List UInt8 := if l.negative then 45 :: l.digits else l.digits

/-- The integer that a literal writes. -/
def value (l : Literal) : Int := if l.negative then -number l.digits else number l.digits

/-- The integer of a literal without a sign, and 0 for one with a sign. -/
def unsigned_value (l : Literal) : Int := if l.negative then 0 else number l.digits

theorem length_chars (l : Literal) : l.chars.length = l.negative.toNat + l.digits.length := by
  unfold chars
  cases l.negative
  · simp
  · simp [Nat.add_comm]

theorem zero_notMem_digits (l : Literal) : 0 ∉ l.digits := fun hmem =>
  ne_of_isdigit (by decide) (l.decimal 0 hmem) rfl

theorem zero_notMem_chars (l : Literal) : 0 ∉ l.chars := by
  unfold chars
  split
  · simp [l.zero_notMem_digits]
  · exact l.zero_notMem_digits

def data (l : Literal) : CStr 10 where
  chars := l.chars
  length_lt := by
    rw [l.length_chars]
    exact Nat.lt_succ_of_le l.short
  no_nul := l.zero_notMem_chars

/-- An `int` holds the number that the digits write. -/
theorem number_le (l : Literal) : number l.digits ≤ 2147483647 := by
  have hlt := number_lt l.decimal
  have hpow : 10 ^ l.digits.length ≤ 10 ^ 9 := Nat.pow_le_pow_right (by decide) (by have := l.short; omega)
  omega

end Literal

/-- Operators over literals. -/
inductive Expression
  | literal (l : Literal)
  | operation (op : operator_t) (left right : Expression)

namespace operator_t

def data (op : operator_t) : CStr 10 where
  chars := op.text
  length_lt := by cases op <;> decide
  no_nul := by cases op <;> decide

/-- The value of an operation on two values: none for a division by zero and for a
value outside of `int`. -/
def apply : operator_t → Int → Int → Option Int
  | plus, l, r => int (l + r)
  | minus, l, r => int (l - r)
  | times, l, r => int (l * r)
  | divide, l, r => if r = 0 then none else int (l.tdiv r)
  | greater, l, r => some (truth (r < l))
  | less, l, r => some (truth (l < r))
  | equal, l, r => some (truth (l = r))
  | and, l, r => some (truth (l ≠ 0 ∧ r ≠ 0))
  | or, l, r => some (truth (l ≠ 0 ∨ r ≠ 0))

end operator_t

namespace Expression

/-- The tree of an expression. -/
def tree : Expression → Node
  | literal l => .node l.data .nil .nil
  | operation op left right => .node op.data left.tree right.tree

/-- The value of an expression under a reading of its literals. -/
def value (read : Literal → Int) : Expression → Option Int
  | literal l => some (read l)
  | operation op left right => do
    let l ← left.value read
    let r ← right.value read
    op.apply l r

/-- An expression and the expressions in it, each of which `evaluate` is called on. -/
def parts : Expression → List Expression
  | literal l => [literal l]
  | operation op left right => operation op left right :: (left.parts ++ right.parts)

def literals : Expression → List Literal
  | literal l => [l]
  | operation _ left right => left.literals ++ right.literals

end Expression

section Values

theorem isdigit_text (op : operator_t) : isdigit (op.text.headD 0) = false := by cases op <;> decide

theorem evaluate_operation (op : operator_t) (left right : Node) :
    evaluate (.node op.data left right) = (do
      let l ← evaluate left
      let r ← evaluate right
      op.apply l r) := by
  have hdigit : isdigit (op.data.chars.headD 0) = false := isdigit_text op
  rw [evaluate, if_neg (by rw [hdigit]; decide)]
  cases op <;> rfl

theorem evaluate_unsigned {l : Literal} (h : l.negative = false) :
    evaluate (.node l.data .nil .nil) = some (number l.digits : Int) := by
  have hchars : l.data.chars = l.digits := if_neg (by simp [h])
  have hhead : isdigit (l.digits.headD 0) = true := by
    obtain ⟨c, digits, hcons⟩ := List.exists_cons_of_ne_nil l.nonempty
    have hmem : c ∈ l.digits := by simp [hcons]
    rw [hcons]
    exact l.decimal c hmem
  rw [evaluate, hchars, if_pos hhead, toInt_atoi_digits l.decimal l.number_le]

/-- No operator is a minus sign with digits. -/
theorem strcmp_signed {l : Literal} (h : l.negative = true) (op : operator_t) : strcmp l.data.chars op.text ≠ 0 := by
  have hop : c_str op.text = op.text := c_str_eq_self op.data.no_nul
  rw [Ne, strcmp_eq_zero_iff, c_str_eq_self l.data.no_nul, hop]
  intro heq
  have hlength : l.chars.length = op.text.length := congrArg List.length heq
  have hdigits := List.length_pos_of_ne_nil l.nonempty
  have hone : op.text.length = 1 := by cases op <;> rfl
  rw [l.length_chars, h, hone, Bool.toNat_true] at hlength
  omega

/-- A minus sign is not a digit, so that a literal with one counts as unknown data. -/
theorem evaluate_signed {l : Literal} (h : l.negative = true) : evaluate (.node l.data .nil .nil) = some 0 := by
  have hchars : l.data.chars = 45 :: l.digits := if_pos h
  have hhead : isdigit (l.data.chars.headD 0) = false := by rw [hchars, List.headD_cons]; decide
  rw [evaluate, if_neg (by rw [hhead]; decide)]
  simp only [strcmp_signed h, if_false]
  rfl

theorem evaluate_literal (l : Literal) : evaluate (.node l.data .nil .nil) = some l.unsigned_value := by
  unfold Literal.unsigned_value
  split
  case isTrue h => exact evaluate_signed h
  case isFalse h => exact evaluate_unsigned (eq_false_of_ne_true h)

theorem evaluate_tree (e : Expression) : evaluate e.tree = e.value Literal.unsigned_value := by
  induction e with
  | literal l => exact evaluate_literal l
  | operation op left right ihl ihr =>
    rw [Expression.tree, evaluate_operation, ihl, ihr, Expression.value]

/-- The value depends on what the literals of the expression are read as. -/
theorem value_congr {e : Expression} {read read' : Literal → Int} (h : ∀ l ∈ e.literals, read l = read' l) :
    e.value read = e.value read' := by
  induction e with
  | literal l => rw [Expression.value, Expression.value, h l List.mem_cons_self]
  | operation op left right ihl ihr =>
    have hleft := ihl fun l hl => h l (List.mem_append_left _ hl)
    have hright := ihr fun l hl => h l (List.mem_append_right _ hl)
    rw [Expression.value, Expression.value, hleft, hright]

theorem literals_subset {e p : Expression} (hp : p ∈ e.parts) : p.literals ⊆ e.literals := by
  induction e with
  | literal l => rw [List.mem_singleton.mp hp]; exact List.Subset.refl _
  | operation op left right ihl ihr =>
    rcases List.mem_cons.mp hp with rfl | hp
    · exact List.Subset.refl _
    rcases List.mem_append.mp hp with hp | hp
    · exact fun l hl => List.mem_append_left _ (ihl hp hl)
    · exact fun l hl => List.mem_append_right _ (ihr hp hl)

theorem literal_mem_parts {e : Expression} {l : Literal} (hl : l ∈ e.literals) : .literal l ∈ e.parts := by
  induction e with
  | literal l' => rw [List.mem_singleton.mp hl]; exact List.mem_cons_self
  | operation op left right ihl ihr =>
    refine List.mem_cons_of_mem _ (List.mem_append.mpr ?_)
    exact (List.mem_append.mp hl).imp ihl ihr

theorem unsigned_value_eq_iff {l : Literal} : l.unsigned_value = l.value ↔ (l.negative = true → l.value = 0) := by
  cases h : l.negative <;> simp [Literal.unsigned_value, Literal.value, h, eq_comm]

/-- Every call of a run of `evaluate` returns the value of its expression exactly if no
literal with a minus sign is other than zero. -/
theorem evaluate_parts_iff (e : Expression) :
    (∀ p ∈ e.parts, ∀ v, p.value Literal.value = some v → evaluate p.tree = some v) ↔
      ∀ l ∈ e.literals, l.negative = true → l.value = 0 := by
  constructor
  · intro h l hl
    have hleaf := h _ (literal_mem_parts hl) l.value rfl
    rw [evaluate_tree, Expression.value] at hleaf
    exact unsigned_value_eq_iff.mp (Option.some.inj hleaf)
  · intro h p hp v hv
    rw [evaluate_tree, ← hv]
    exact value_congr fun l hl => unsigned_value_eq_iff.mpr (h l (literals_subset hp hl))

end Values

/-- The value of the expression is what `evaluate` returns exactly if it is the value with
0 for every literal with a minus sign. -/
theorem evaluate_correct_iff (e : Expression) (v : Int) (h : e.value Literal.value = some v) :
    (evaluate e.tree = some v ↔ e.value Literal.unsigned_value = e.value Literal.value) ∧
      ((∀ p ∈ e.parts, ∀ w, p.value Literal.value = some w → evaluate p.tree = some w) ↔
        ∀ l ∈ e.literals, l.negative = true → l.value = 0) := by
  refine ⟨?_, evaluate_parts_iff e⟩
  rw [evaluate_tree, h]

/-- The literal `-5`. -/
def minus_five : Literal := ⟨true, [53], by decide, List.forall_mem_singleton.mpr rfl, by decide⟩

/-- The literal `5`. -/
def five : Literal := ⟨false, [53], by decide, List.forall_mem_singleton.mpr rfl, by decide⟩

theorem minus_five_evaluated :
    ¬∀ (e : Expression) (v : Int), e.value Literal.value = some v → evaluate e.tree = some v := by
  intro h
  have hfive := h (.literal minus_five) (-5) (by decide)
  exact absurd hfive (by decide)

/-- The expression `5*5-5`. -/
def twenty : Expression :=
  .operation .minus (.operation .times (.literal five) (.literal five)) (.literal five)

theorem evaluate_correct_five :
    twenty.value Literal.value = some 20 ∧ evaluate twenty.tree = some 20 := by
  have hvalue : twenty.value Literal.value = some 20 := by decide
  exact ⟨hvalue, (evaluate_correct_iff twenty 20 hvalue).1.mpr (by decide)⟩

end csystems.expression_tree
