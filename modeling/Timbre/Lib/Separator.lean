/-
  Lists joined with a separator, and split again where the separator occurs.

  **Splitting gives back what has been joined if and only if no separator starts inside a piece**
  (`split_join_iff`), the separator behind the piece being counted to it: an occurrence may begin
  in the piece and end in the separator.  A separator without a border cannot, so that **pieces are
  given back if and only if none contains the separator** (`split_join_iff_of_unbordered`).
-/
import Mathlib.Data.List.Forall2
import Mathlib.Data.List.Infix

namespace Separator

universe u
variable {α : Type u}

/-- No separator starts in the piece, if `s` stands behind it. -/
def Free (sep s : List α) : List α → Prop
  | [] => True
  | c :: x => ¬ sep <+: c :: (x ++ s) ∧ Free sep s x

/-- No separator starts in a piece, the separators behind them being counted to the pieces. -/
def Clean (sep : List α) : List (List α) → Prop
  | [] => False
  | [x] => Free sep [] x
  | x :: xs => Free sep sep x ∧ Clean sep xs

variable {sep s x y rest : List α} {xs : List (List α)}

theorem clean_cons_cons : Clean sep (x :: y :: xs) ↔ Free sep sep x ∧ Clean sep (y :: xs) := Iff.rfl

/-- No separator starts in a piece that is without its first element. -/
theorem free_of_not_mem {a : α} {t s : List α} : ∀ {x : List α}, a ∉ x → Free (a :: t) s x
  | [], _ => trivial
  | c :: x, h => by
    refine ⟨fun hprefix => ?_, free_of_not_mem fun hx => h (List.mem_cons_of_mem c hx)⟩
    exact h (List.mem_cons.2 (.inl (List.cons_prefix_cons.1 hprefix).1))

/-- An occurrence that starts in the piece ends before what stands behind the separator. -/
theorem free_append (rest : List α) : ∀ x : List α, Free sep (sep ++ rest) x ↔ Free sep sep x
  | [] => Iff.rfl
  | c :: x => by
    have hlocal : sep <+: c :: (x ++ (sep ++ rest)) ↔ sep <+: c :: (x ++ sep) := by
      have hassoc : c :: (x ++ (sep ++ rest)) = c :: (x ++ sep) ++ rest := by simp
      rw [hassoc]
      constructor
      · intro h
        exact List.prefix_of_prefix_length_le h (List.prefix_append _ _) (by simp; omega)
      · exact fun h => h.trans (List.prefix_append _ _)
    rw [Free, Free, hlocal, free_append rest x]

/-! ## Joined pieces -/

theorem intercalate_modifyHead_cons {c : α} : ∀ {xs : List (List α)}, xs ≠ [] →
    sep.intercalate (xs.modifyHead (c :: ·)) = c :: sep.intercalate xs
  | [], h => absurd rfl h
  | [x], _ => rfl
  | x :: y :: xs, _ => by
    rw [List.modifyHead_cons, List.intercalate_cons_cons, List.intercalate_cons_cons]
    rfl

theorem length_intercalate_le (sep : List α) {ys : List (List α)} (h : List.Forall₂ (· <+: ·) xs ys) :
    (sep.intercalate xs).length ≤ (sep.intercalate ys).length := by
  induction h with
  | nil => exact le_rfl
  | @cons x y xs ys hxy h ih =>
    have hle := hxy.length_le
    cases h with
    | nil => rwa [List.intercalate_singleton, List.intercalate_singleton]
    | cons _ _ =>
      rw [List.intercalate_cons_cons, List.intercalate_cons_cons]
      simp only [List.length_append]
      omega

/-- Beginnings of pieces that are as long as the pieces when joined are the pieces. -/
theorem eq_of_starts {ys : List (List α)} (h : List.Forall₂ (· <+: ·) xs ys)
    (hlength : (sep.intercalate ys).length ≤ (sep.intercalate xs).length) : xs = ys := by
  induction h with
  | nil => rfl
  | @cons x y xs ys hxy h ih =>
    have hle := hxy.length_le
    cases h with
    | nil =>
      rw [List.intercalate_singleton, List.intercalate_singleton] at hlength
      rw [hxy.eq_of_length_le hlength]
    | cons hxy' h' =>
      have hrest := length_intercalate_le sep (List.Forall₂.cons hxy' h')
      rw [List.intercalate_cons_cons, List.intercalate_cons_cons] at hlength
      simp only [List.length_append] at hlength
      rw [hxy.eq_of_length_le (by omega), ih (by omega)]

/-! ## Separators without a border -/

/-- No proper end of the separator is a beginning of it. -/
def Unbordered (sep : List α) : Prop := ∀ k < sep.length, 0 < k → ¬ sep.drop k <+: sep

/-- An occurrence that starts in front of the separator ends there. -/
theorem prefix_append_iff (h : Unbordered sep) (hx : x ≠ []) : sep <+: x ++ sep ↔ sep <+: x := by
  refine ⟨fun hocc => ?_, fun hocc => hocc.trans (List.prefix_append x sep)⟩
  rcases Nat.lt_or_ge x.length sep.length with hlt | hle
  · obtain ⟨rest, hrest⟩ := List.prefix_of_prefix_length_le (List.prefix_append x sep) hocc hlt.le
    have hdrop : sep.drop x.length = rest := by rw [← hrest, List.drop_left]
    have hborder : x ++ rest <+: x ++ sep := by rwa [hrest]
    refine absurd ?_ (h x.length hlt (List.length_pos_of_ne_nil hx))
    rw [hdrop]
    exact (List.prefix_append_right_inj x).1 hborder
  · exact List.prefix_of_prefix_length_le hocc (List.prefix_append x sep) hle

theorem free_iff_of_unbordered (h : Unbordered sep) (hsep : sep ≠ []) : ∀ {x : List α},
    Free sep sep x ↔ ¬ sep <:+: x
  | [] => iff_of_true trivial fun hocc => hsep (List.infix_nil.1 hocc)
  | c :: x => by
    have hhead := prefix_append_iff h (List.cons_ne_nil c x)
    rw [Free, free_iff_of_unbordered h hsep, List.infix_cons_iff, not_or, ← hhead]
    rfl

theorem free_nil_iff (hsep : sep ≠ []) : ∀ {x : List α}, Free sep [] x ↔ ¬ sep <:+: x
  | [] => iff_of_true trivial fun hocc => hsep (List.infix_nil.1 hocc)
  | c :: x => by
    rw [Free, free_nil_iff hsep, List.infix_cons_iff, not_or, List.append_nil]

theorem clean_iff_of_unbordered (h : Unbordered sep) (hsep : sep ≠ []) : ∀ {xs : List (List α)},
    Clean sep xs ↔ xs ≠ [] ∧ ∀ x ∈ xs, ¬ sep <:+: x
  | [] => iff_of_false id fun hxs => hxs.1 rfl
  | [x] => by
    rw [Clean, free_nil_iff hsep, List.forall_mem_singleton]
    exact (and_iff_right (List.cons_ne_nil x [])).symm
  | x :: y :: xs => by
    rw [clean_cons_cons, free_iff_of_unbordered h hsep, clean_iff_of_unbordered h hsep,
      List.forall_mem_cons (a := x)]
    simp only [ne_eq, reduceCtorEq, not_false_eq_true, true_and]

/-! ## Splitting -/

variable [DecidableEq α]

instance : Decidable (Unbordered sep) :=
  inferInstanceAs (Decidable (∀ k < sep.length, 0 < k → ¬ sep.drop k <+: sep))

instance Free.decidable (sep s : List α) : (x : List α) → Decidable (Free sep s x)
  | [] => isTrue trivial
  | c :: x =>
    have := Free.decidable sep s x
    inferInstanceAs (Decidable (¬ sep <+: c :: (x ++ s) ∧ Free sep s x))

instance Clean.decidable (sep : List α) : (xs : List (List α)) → Decidable (Clean sep xs)
  | [] => isFalse id
  | [x] => inferInstanceAs (Decidable (Free sep [] x))
  | x :: y :: xs =>
    have := Clean.decidable sep (y :: xs)
    inferInstanceAs (Decidable (Free sep sep x ∧ Clean sep (y :: xs)))

/-- Splits at each separator that a scan from the left meets; of the last one it has met, `skip`
    elements are still to come. -/
def splitFrom (sep : List α) : ℕ → List α → List (List α)
  | _, [] => [[]]
  | skip + 1, _ :: s => splitFrom sep skip s
  | 0, c :: s =>
    if sep <+: c :: s then [] :: splitFrom sep (sep.length - 1) s
    else (splitFrom sep 0 s).modifyHead (c :: ·)

/-- Splits at the separator, which is not empty. -/
def split (sep s : List α) : List (List α) := splitFrom sep 0 s

theorem splitFrom_length (sep rest : List α) : ∀ t : List α,
    splitFrom sep t.length (t ++ rest) = split sep rest
  | [] => rfl
  | _ :: t => splitFrom_length sep rest t

theorem split_sep (hsep : sep ≠ []) : split sep (sep ++ rest) = [] :: split sep rest := by
  obtain ⟨c, t, rfl⟩ := List.exists_cons_of_ne_nil hsep
  rw [List.cons_append, split, splitFrom, if_pos]
  · exact congrArg ([] :: ·) (splitFrom_length (c :: t) rest t)
  · exact List.prefix_append (c :: t) rest

/-- A piece in which no separator starts is put before the first piece of the rest. -/
theorem split_append : ∀ {x : List α}, Free sep s x →
    split sep (x ++ s) = (split sep s).modifyHead (x ++ ·)
  | [], _ => by
    show split sep s = _
    cases split sep s <;> rfl
  | c :: x, h => by
    rw [List.cons_append, split, splitFrom, if_neg h.1]
    show (split sep (x ++ s)).modifyHead _ = _
    rw [split_append h.2, List.modifyHead_modifyHead]
    rfl

theorem split_single (h : Free sep [] x) : split sep x = [x] := by
  have := split_append h
  rwa [List.append_nil, show split sep [] = [[]] from rfl, List.modifyHead_cons, List.append_nil] at this

theorem split_piece (hsep : sep ≠ []) (h : Free sep (sep ++ rest) x) :
    split sep (x ++ (sep ++ rest)) = x :: split sep rest := by
  rw [split_append h, split_sep hsep, List.modifyHead_cons, List.append_nil]

/-- Where a separator starts in a piece, the scan finds a shorter one. -/
theorem split_short (hsep : sep ≠ []) : ∀ {x : List α}, ¬ Free sep s x →
    ∃ p ps, split sep (x ++ s) = p :: ps ∧ p.length < x.length
  | [], h => absurd trivial h
  | c :: x, h => by
    rw [List.cons_append, split, splitFrom]
    split_ifs with hstart
    · exact ⟨[], _, rfl, Nat.succ_pos _⟩
    · obtain ⟨p, ps, hsplit, hlt⟩ := split_short hsep fun hfree => h ⟨hstart, hfree⟩
      refine ⟨c :: p, ps, ?_, Nat.succ_lt_succ hlt⟩
      show (split sep (x ++ s)).modifyHead _ = _
      rw [hsplit]
      rfl

/-- **Splitting what has been joined.** -/
theorem split_join_iff (hsep : sep ≠ []) : ∀ xs : List (List α),
    split sep (sep.intercalate xs) = xs ↔ Clean sep xs
  | [] => by
    rw [List.intercalate_nil]
    exact iff_of_false (fun h => by cases h) id
  | [x] => by
    rw [List.intercalate_singleton]
    refine ⟨fun h => ?_, split_single⟩
    by_contra hfree
    obtain ⟨p, ps, hsplit, hlt⟩ := split_short hsep hfree
    rw [List.append_nil, h] at hsplit
    obtain rfl : x = p := (List.cons.inj hsplit).1
    exact lt_irrefl _ hlt
  | x :: y :: xs => by
    have ih := split_join_iff hsep (y :: xs)
    rw [List.intercalate_cons_cons, List.append_assoc, clean_cons_cons, ← ih]
    constructor
    · intro h
      have hfree : Free sep (sep ++ sep.intercalate (y :: xs)) x := by
        by_contra hfree
        obtain ⟨p, ps, hsplit, hlt⟩ := split_short hsep hfree
        rw [h] at hsplit
        obtain rfl : x = p := (List.cons.inj hsplit).1
        exact lt_irrefl _ hlt
      rw [split_piece hsep hfree] at h
      exact ⟨(free_append _ x).1 hfree, (List.cons.inj h).2⟩
    · rintro ⟨hfree, hrest⟩
      rw [split_piece hsep ((free_append _ x).2 hfree), hrest]

/-! ## Joining what has been split -/

theorem splitFrom_ne_nil (sep : List α) : ∀ (skip : ℕ) (s : List α), splitFrom sep skip s ≠ []
  | _, [] => List.cons_ne_nil _ _
  | skip + 1, _ :: s => splitFrom_ne_nil sep skip s
  | 0, c :: s => by
    rw [splitFrom]
    split_ifs with hstart
    · exact List.cons_ne_nil _ _
    · intro h
      exact splitFrom_ne_nil sep 0 s (List.modifyHead_eq_nil_iff.1 h)

theorem intercalate_splitFrom (hsep : sep ≠ []) : ∀ (skip : ℕ) (s : List α),
    sep.intercalate (splitFrom sep skip s) = s.drop skip
  | _, [] => by rw [splitFrom, List.intercalate_singleton, List.drop_nil]
  | skip + 1, _ :: s => intercalate_splitFrom hsep skip s
  | 0, c :: s => by
    rw [splitFrom]
    split_ifs with hstart
    · obtain ⟨rest, hrest⟩ := hstart
      have hdrop : (c :: s).drop sep.length = rest := by rw [← hrest, List.drop_left]
      rw [List.drop_cons (List.length_pos_of_ne_nil hsep)] at hdrop
      have ih := intercalate_splitFrom hsep (sep.length - 1) s
      obtain ⟨p, ps, hps⟩ := List.exists_cons_of_ne_nil (splitFrom_ne_nil sep (sep.length - 1) s)
      rw [hps] at ih ⊢
      rw [List.intercalate_cons_cons, ih, hdrop]
      exact hrest
    · rw [intercalate_modifyHead_cons (splitFrom_ne_nil sep 0 s), intercalate_splitFrom hsep 0 s]
      rfl

/-- **Joining what has been split.** -/
theorem intercalate_split (hsep : sep ≠ []) (s : List α) : sep.intercalate (split sep s) = s :=
  intercalate_splitFrom hsep 0 s

/-- Pieces that start those of the split of what has been joined are all of these. -/
theorem starts_split_iff (hsep : sep ≠ []) (xs : List (List α)) :
    List.Forall₂ (· <+: ·) xs (split sep (sep.intercalate xs)) ↔ Clean sep xs := by
  rw [← split_join_iff hsep]
  constructor
  · intro h
    exact (eq_of_starts h (congrArg List.length (intercalate_split hsep _)).le).symm
  · intro h
    rw [h]
    exact List.forall₂_refl xs

/-- **Splitting what has been joined**, with a separator that has no border. -/
theorem split_join_iff_of_unbordered (h : Unbordered sep) (hsep : sep ≠ []) (xs : List (List α)) :
    split sep (sep.intercalate xs) = xs ↔ xs ≠ [] ∧ ∀ x ∈ xs, ¬ sep <:+: x :=
  (split_join_iff hsep xs).trans (clean_iff_of_unbordered h hsep)

end Separator
