/-
  Polynomials as coefficient vectors, sorted in ascending order of power.

  The loops of the evaluation and of the division run from the coefficient of the second highest
  power down, the division in place in a copy of the dividend.  **The dividend is `x - point` times
  the quotient and the remainder, and the remainder is the value at the point** (`polyDiv_spec`).
-/
import Timbre.Crypto.Blocks
import Timbre.Lib.Synthetic

namespace Timbre.Pos

variable {R : Type} [CommRing R]

/-! ## By recursion -/

/-- The value of the polynomial at the point, starting with the coefficient of the highest
    power. -/
def polyEval (point : R) : List R → R
  | [] => 0
  | [c] => c
  | c :: cs => polyEval point cs * point + c

/-- The remainders of synthetic division, starting with the coefficient of the second highest
    power. -/
def remainders (point : R) : List R → List R
  | [] => []
  | [c] => [c]
  | c :: cs =>
    let remainder := remainders point cs
    (c + remainder.headD 0 * point) :: remainder

/-- The quotient and the remainder of the division by `x - point`. -/
def polyDiv (dividend : List R) (point : R) : List R × R :=
  match remainders point dividend with
  | [] => ([], 0)
  | [c] => ([], c)
  | c :: quotient => (quotient, c)

theorem polyEval_eq (point : R) : ∀ poly : List R, polyEval point poly = Horner.eval point poly
  | [] => rfl
  | [c] => by simp [polyEval]
  | c :: d :: ds => by
    show polyEval point (d :: ds) * point + c = _
    rw [polyEval_eq point (d :: ds), Horner.eval_cons (c := c)]

theorem remainders_eq (point : R) : ∀ poly : List R,
    remainders point poly = Horner.suffixes point poly
  | [] => rfl
  | [c] => by simp [remainders, Horner.suffixes]
  | c :: d :: ds => by
    show (c + (remainders point (d :: ds)).headD 0 * point) :: remainders point (d :: ds) = _
    rw [remainders_eq point (d :: ds), add_comm]
    rfl

theorem polyDiv_cons (point c : R) (cs : List R) :
    polyDiv (c :: cs) point = (Horner.suffixes point cs, polyEval point (c :: cs)) := by
  rw [polyDiv, remainders_eq, polyEval_eq, Horner.suffixes]
  cases cs <;> rfl

/-- Once its value at the point is taken off, a polynomial leaves no remainder. -/
theorem polyDiv_sub (point c : R) (cs : List R) :
    polyDiv ((c - polyEval point (c :: cs)) :: cs) point = (Horner.suffixes point cs, 0) := by
  rw [polyDiv_cons, polyEval_eq, polyEval_eq, Horner.eval_cons, Horner.eval_cons]
  ring_nf

/-- The quotient and the remainder give the dividend back. -/
theorem polynomial_polyDiv (point : R) : ∀ dividend : List R, Horner.polynomial dividend =
    (Polynomial.X - Polynomial.C point) * Horner.polynomial (polyDiv dividend point).1 +
      Polynomial.C (polyDiv dividend point).2
  | [] => by simp [polyDiv, remainders]
  | c :: cs => by
    rw [polyDiv_cons, polyEval_eq]
    exact Horner.polynomial_suffixes point c cs

theorem polyDiv_snd (point : R) : ∀ dividend : List R,
    (polyDiv dividend point).2 = polyEval point dividend
  | [] => rfl
  | c :: cs => by rw [polyDiv_cons]

/-! ## By loops -/

namespace Buffer

/-- The loop of `polyEval`, from index `i - 1` down. -/
def evalLoop (poly : List R) (point : R) : ℕ → R → Except Err R
  | 0, res => return res
  | i + 1, res => do
    let c ← index poly i
    evalLoop poly point i (res * point + c)

/-- `polyEval`: evaluates the polynomial at the point using Horner's rule. -/
def polyEval (poly : List R) (point : R) : Except Err R := do
  let l := poly.length
  if l = 0 then return 0
  else
    let res ← index poly (l - 1)
    evalLoop poly point (l - 1) res

/-- The loop of `polyDiv`, from index `i - 1` down. -/
def divLoop (point : R) : ℕ → List R → Except Err (List R)
  | 0, remainder => return remainder
  | i + 1, remainder => do
    let above ← index remainder (i + 1)
    let term := above * point
    let c ← index remainder i
    divLoop point i (remainder.set i (c + term))

/-- `polyDiv`: divides the polynomial by `x - point` using synthetic division. -/
def polyDiv (dividend : List R) (point : R) : Except Err (List R × R) := do
  let l := dividend.length
  let remainder ← divLoop point (l - 1) dividend
  if l = 0 then return ([], 0)
  else
    let c ← index remainder 0
    if l = 1 then return ([], c)
    else return (remainder.drop 1, c)

theorem index_append {α : Type} (xs : List α) (y : α) (ys : List α) :
    index (xs ++ y :: ys) xs.length = .ok y := by
  rw [index_ok (by simp)]
  simp

/-- The coefficients behind the index have been summed up. -/
theorem evalLoop_eq (point : R) (xs ys : List R) :
    evalLoop (xs ++ ys) point xs.length (Horner.eval point ys) = .ok (Horner.eval point (xs ++ ys)) := by
  induction xs using List.reverseRecOn generalizing ys with
  | nil => rfl
  | append_singleton xs c ih =>
    have hindex : index (xs ++ [c] ++ ys) xs.length = .ok c := by
      rw [List.append_assoc]
      exact index_append xs c ys
    rw [List.length_append, List.length_singleton, evalLoop, hindex]
    show evalLoop (xs ++ [c] ++ ys) point xs.length (Horner.eval point (c :: ys)) = _
    rw [List.append_assoc]
    exact ih (c :: ys)

/-- Behind the index the buffer holds the remainders, the first of them at the index. -/
theorem divLoop_eq (point : R) (xs : List R) (d : R) (ds : List R) :
    divLoop point xs.length (xs ++ Horner.suffixes point (d :: ds)) =
      .ok (Horner.suffixes point (xs ++ d :: ds)) := by
  induction xs using List.reverseRecOn generalizing d ds with
  | nil => rfl
  | append_singleton xs c ih =>
    have hbuffer : xs ++ [c] ++ Horner.suffixes point (d :: ds) =
        xs ++ c :: Horner.suffixes point (d :: ds) := List.append_assoc _ _ _
    have habove : index (xs ++ [c] ++ Horner.suffixes point (d :: ds)) (xs.length + 1) =
        .ok (Horner.eval point (d :: ds)) := by
      rw [← List.length_singleton (a := c), ← List.length_append, Horner.suffixes]
      exact index_append _ _ _
    rw [List.length_append, List.length_singleton, divLoop, habove, hbuffer]
    show (index (xs ++ c :: _) xs.length >>= _) = _
    rw [index_append]
    show divLoop point xs.length ((xs ++ c :: _).set xs.length _) = _
    rw [List.set_append_right _ _ le_rfl, Nat.sub_self, List.set_cons_zero, add_comm c,
      List.append_assoc, List.singleton_append]
    exact ih c (d :: ds)

/-- **The loop of `polyEval`** returns the value. -/
theorem polyEval_ok (point : R) (poly : List R) : polyEval poly point = .ok (Pos.polyEval point poly) := by
  rw [polyEval_eq]
  rcases List.eq_nil_or_concat' poly with rfl | ⟨xs, c, rfl⟩
  · rfl
  · have hlen : (xs ++ [c]).length - 1 = xs.length := by simp
    have hloop := evalLoop_eq point xs [c]
    rw [Horner.eval_cons, Horner.eval_nil, zero_mul, zero_add] at hloop
    rw [polyEval, if_neg (by simp), hlen, index_append]
    exact hloop

/-- **The loop of `polyDiv`** returns the quotient and the remainder. -/
theorem polyDiv_ok (dividend : List R) (point : R) :
    polyDiv dividend point = .ok (Pos.polyDiv dividend point) := by
  rcases List.eq_nil_or_concat' dividend with rfl | ⟨xs, c, rfl⟩
  · rfl
  · have hlen : (xs ++ [c]).length - 1 = xs.length := by simp
    have hloop := divLoop_eq point xs c []
    have hlast : Horner.suffixes point [c] = [c] := by simp [Horner.suffixes]
    rw [hlast] at hloop
    rw [polyDiv, hlen, hloop]
    cases xs with
    | nil =>
      rw [List.nil_append, hlast, polyDiv_cons]
      rfl
    | cons d ds =>
      have hlen : (d :: (ds ++ [c])).length ≠ 1 := by simp
      rw [List.cons_append, polyDiv_cons, polyEval_eq]
      show (if (d :: (ds ++ [c])).length = 1 then Except.ok ([], Horner.eval point (d :: (ds ++ [c])))
        else Except.ok (Horner.suffixes point (ds ++ [c]), Horner.eval point (d :: (ds ++ [c])))) = _
      exact if_neg hlen

/-- **The division returns the quotient and the remainder**, for vectors of any length, and the
    remainder is the value at the point. -/
theorem polyDiv_spec (dividend : List R) (point : R) : ∃ q c, polyDiv dividend point = .ok (q, c) ∧
    polyEval dividend point = .ok c ∧
    Horner.polynomial dividend =
      (Polynomial.X - Polynomial.C point) * Horner.polynomial q + Polynomial.C c := by
  refine ⟨(Pos.polyDiv dividend point).1, (Pos.polyDiv dividend point).2, polyDiv_ok dividend point, ?_,
    polynomial_polyDiv point dividend⟩
  rw [polyEval_ok, polyDiv_snd]

/-- The polynomial `5 + 3x + 2x²` at the point 10. -/
example : polyDiv [(5 : ℤ), 3, 2] 10 = .ok ([23, 2], 235) := rfl

end Buffer
end Timbre.Pos
