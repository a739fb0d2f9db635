import Sugod.Eval.Steps
import Sugod.Proofs.EmptyScope

/-!
# A counting loop is a while loop

A counting loop does what a block does that holds its initialisation and a while loop, whose body is
the body of the counting loop as a block and then the increment. The main statement is
`for_iff_while`.

The two run the same actions in the same order, apart from two things. The while loop enters a scope
around the block and the increment, in which nothing is declared; so by `Action.nested_eq_self` it
makes no difference. And the numbers of steps are not the same on both sides, so each side is
compared with the other one that has some more steps (`Action.WellGrows`).
-/

set_option autoImplicit false

namespace Sugod

namespace Action

variable {ε α β : Type} {x y z : Action ε α}

/-- In every well-formed state the second action agrees with the first one, unless that runs out of
steps. -/
def WellGrows (x y : Action ε α) : Prop :=
  ∀ s, s.env.WellFormed → x s ≠ .spent → y s = x s

theorem Grows.wellGrows (h : x.Grows y) : x.WellGrows y :=
  fun s _ hs => h s hs

theorem WellGrows.trans (hxy : x.WellGrows y) (hyz : y.WellGrows z) : x.WellGrows z := by
  intro s hwf hs
  have hy : y s = x s := hxy s hwf hs
  calc
    z s = y s := hyz s hwf (by rw [hy]; exact hs)
    _ = x s := hy

/-- An action that changes the environment leaves a well-formed one behind. -/
theorem Affects.wellFormed (hx : x.Affects Env.Change) {s s' : State} (hwf : s.env.WellFormed)
    (h : (x s).after? = some s') : s'.env.WellFormed :=
  (Env.Changes.sameShape (hx s s' h).1).wellFormed hwf

theorem WellGrows.bind {f g : α → Action ε β} (hxy : x.WellGrows y) (hx : x.Affects Env.Change)
    (hfg : ∀ a, (f a).WellGrows (g a)) : (x >>= f).WellGrows (y >>= g) := by
  intro s hwf hs
  rw [bind_apply] at hs
  rw [bind_apply, bind_apply]
  cases hr : x s with
  | done a s' =>
    rw [hr] at hs
    rw [hxy s hwf (by simp [hr]), hr]
    exact hfg a s' (hx.wellFormed hwf (by rw [hr]; rfl)) hs
  | stop e s' => rw [hxy s hwf (by simp [hr]), hr]
  | spent =>
    rw [hr] at hs
    exact absurd rfl hs

theorem WellGrows.nested (h : x.WellGrows y) : x.nested.WellGrows y.nested := by
  intro s hwf hs
  have hlt : s.env.current < s.env.depth := by
    rw [hwf.depth_eq]
    exact Nat.lt_succ_self _
  have hx : x { s with env := s.env.push s.env.current } ≠ .spent := fun hspent =>
    hs (by simp [Action.nested, Action.inScope, hspent, Result.mapAfter])
  simp only [Action.nested, Action.inScope, h _ (hwf.push hlt) hx]

/-- A scope in which nothing is declared may be there or not. -/
theorem wellGrows_nested (hx : ∀ b, x.Simulates (Env.Inserted b)) :
    x.WellGrows x.nested ∧ x.nested.WellGrows x :=
  ⟨fun _ hwf _ => nested_eq_self hx hwf, fun _ hwf _ => (nested_eq_self hx hwf).symm⟩

end Action

namespace Eval

open Sugod.Action

variable (c step : Expr) (body : List Stmt)

/-- What a counting loop does in a round: the body in a scope of its own, and the increment. -/
def round (n : Nat) (step : Expr) (body : List Stmt) : Action Interrupt Unit := do
  nested (stmts n body)
  increment n (some step)

theorem round_grows {n m : Nat} (h : n ≤ m) : (round n step body).Grows (round m step body) := by
  refine (stmts_mono h body).nested.bind fun _ => ?_
  exact grows_of_le (fun k => (stepGrows k).increment (some step)) h

theorem round_affects (n : Nat) : (round n step body).Affects Env.Change :=
  have holds := compositional_affects.holds n
  (compositional_affects.bindPart (compositional_affects.nested (holds.stmts body))
    fun _ _ _ _ => holds.increment (some step)).changes

theorem round_simulates (n b : Nat) : (round n step body).Simulates (Env.Inserted b) :=
  have rules := (Env.Inserted.simulation b).compositional
  rules.bindPart (rules.nested ((rules.holds n).stmts body))
    fun _ _ _ _ => (rules.holds n).increment (some step)

/-! ## The two loops, step by step -/

theorem loop_some_succ (n : Nat) :
    loop (n + 1) c body (some step) = (do
      if ← (cond n c).asStmt then
        round n step body
        loop n c body (some step)
      else pure ()) := by
  rw [loop]
  simp only [round, bind_assoc]

theorem loop_none_succ (n : Nat) :
    loop (n + 2) c body none = (do
      if ← (cond (n + 1) c).asStmt then
        nested (stmts (n + 1) body)
        loop (n + 1) c body none
      else pure ()) := by
  rw [loop, increment]
  simp only [pure_bind]

/-- The body of the while loop does what a round of the counting loop does. -/
theorem stmts_body (n : Nat) :
    stmts (n + 3) [.block body, .expr step] = round (n + 1) step body := by
  rw [stmts, stmts, stmts, stmt, stmt, round, increment]
  simp only [bind_pure_unit]

/-! ## One loop as the other -/

theorem cond_grows {n m : Nat} (h : n ≤ m) : (cond n c).asStmt.Grows (cond m c).asStmt :=
  (grows_of_le (fun k => (stepGrows k).cond c) h).asStmt

theorem cond_affects (n : Nat) : (cond n c).asStmt.Affects Env.Change :=
  ((compositional_affects.holds n).cond c).asStmt.changes

/-- What a counting loop ends with, the while loop ends with. -/
theorem loop_wellGrows_while (n : Nat) :
    (loop n c body (some step)).WellGrows (loop (n + 3) c [.block body, .expr step] none) := by
  induction n with
  | zero =>
    rw [loop]
    exact (grows_spent _).wellGrows
  | succ n ih =>
    have hround : (round n step body).WellGrows
        (nested (stmts (n + 3) [.block body, .expr step])) := by
      rw [stmts_body]
      have hmore : (round n step body).WellGrows (round (n + 1) step body) :=
        (round_grows step body (Nat.le_succ n)).wellGrows
      exact hmore.trans (wellGrows_nested (round_simulates step body (n + 1))).1
    rw [loop_some_succ, loop_none_succ]
    refine (cond_grows c (by omega)).wellGrows.bind (cond_affects c n) fun holds => ?_
    cases holds with
    | true => exact hround.bind (round_affects step body n) fun _ => ih
    | false => exact (Grows.refl _).wellGrows

theorem increment_none_grows (n : Nat) : (increment n none).Grows (pure ()) := by
  cases n with
  | zero =>
    rw [increment]
    exact grows_spent _
  | succ n =>
    rw [increment]
    exact .refl _

/-- What the while loop ends with, the counting loop ends with. -/
theorem while_wellGrows_loop (n : Nat) :
    (loop n c [.block body, .expr step] none).WellGrows (loop (n + 1) c body (some step)) := by
  induction n with
  | zero =>
    rw [loop]
    exact (grows_spent _).wellGrows
  | succ n ih =>
    have holds := compositional_affects.holds n
    have hround : (nested (stmts n [.block body, .expr step])).WellGrows
        (round (n + 1) step body) := by
      have hmore : (nested (stmts n [.block body, .expr step])).WellGrows
          (nested (round (n + 1) step body)) := by
        rw [← stmts_body]
        exact (stmts_mono (Nat.le_add_right n 3) _).nested.wellGrows
      exact hmore.trans (wellGrows_nested (round_simulates step body (n + 1))).2
    have hloop : (do
        increment n none
        loop n c [.block body, .expr step] none).WellGrows (loop (n + 1) c body (some step)) :=
      (increment_none_grows n).wellGrows.bind (holds.increment none).changes fun _ => ih
    rw [loop, loop_some_succ]
    refine (cond_grows c (Nat.le_succ n)).wellGrows.bind (cond_affects c n) fun holds' => ?_
    cases holds' with
    | true => exact hround.bind (holds.stmts _).nested.changes fun _ => hloop
    | false => exact (Grows.refl _).wellGrows

/-! ## One statement as the other -/

variable (init : Stmt)

theorem stmt_block (n : Nat) :
    stmt (n + 4) (.block [init, .whileLoop c body]) = nested (do
      stmt (n + 2) init
      loop n c body none) := by
  rw [stmt, stmts, stmts, stmts, stmt]
  simp only [bind_pure_unit]

theorem for_wellGrows_while (n : Nat) :
    (stmt n (.forLoop init c step body)).WellGrows
      (stmt (n + 6) (.block [init, .whileLoop c [.block body, .expr step]])) := by
  cases n with
  | zero =>
    rw [stmt]
    exact (grows_spent _).wellGrows
  | succ n =>
    have hinit : (stmt n init).WellGrows (stmt (n + 5) init) :=
      (stmt_mono (Nat.le_add_right n 5) init).wellGrows
    have hfor : stmt (n + 1) (.forLoop init c step body) = nested (do
        stmt n init
        loop n c body (some step)) := by rw [stmt]
    have hblock := stmt_block c [.block body, .expr step] init (n + 3)
    rw [hfor, hblock]
    exact (hinit.bind (stmt_affects n init) fun _ => loop_wellGrows_while c step body n).nested

theorem while_wellGrows_for (n : Nat) :
    (stmt n (.block [init, .whileLoop c [.block body, .expr step]])).WellGrows
      (stmt (n + 3) (.forLoop init c step body)) := by
  have hloop : (loop n c [.block body, .expr step] none).WellGrows
      (loop (n + 2) c body (some step)) :=
    (while_wellGrows_loop c step body n).trans
      (loop_mono (Nat.le_succ (n + 1)) c body (some step)).wellGrows
  have hmore := (stmt_mono (Nat.le_add_right n 4)
    (.block [init, .whileLoop c [.block body, .expr step]])).wellGrows
  rw [stmt_block] at hmore
  rw [stmt]
  refine hmore.trans (WellGrows.nested ?_)
  exact (Grows.refl _).wellGrows.bind (stmt_affects (n + 2) init) fun _ => hloop

end Eval

/-- **A counting loop is a while loop.** From every well-formed state, a counting loop ends exactly
if the block of its initialisation and of the while loop does, and then in the same way: done,
stopped by the same fault, or stopped by the same return, in the same state. -/
theorem for_iff_while (init : Stmt) (c step : Expr) (body : List Stmt) (s : State)
    (hwf : s.env.WellFormed) (r : Result Interrupt Unit) (hr : r ≠ .spent) :
    (∃ n, Eval.stmt n (.forLoop init c step body) s = r) ↔
      ∃ n, Eval.stmt n (.block [init, .whileLoop c [.block body, .expr step]]) s = r := by
  constructor
  · rintro ⟨n, rfl⟩
    exact ⟨n + 6, Eval.for_wellGrows_while c step body init n s hwf hr⟩
  · rintro ⟨n, rfl⟩
    exact ⟨n + 3, Eval.while_wellGrows_for c step body init n s hwf hr⟩

/-! ## A loop that sums up -/

/-- A name on the first line. -/
def nameToken (name : String) : Token :=
  ⟨.identifier name, name, 1⟩

/-- A mark on the first line. -/
def markToken (m : Mark) : Token :=
  ⟨.mark m, m.spelling, 1⟩

/-- A state with the variable `sum`. -/
def summing (n : Int64) : State :=
  ⟨{ globals := [("sum", ⟨some .int, some (.int n), true⟩)] }, {}, 0, false⟩

/-- `MUGNA NUMERO i = 1` -/
def countFrom : Stmt :=
  .declare (nameToken "i") .int (some (.literal (.int 1) 1)) true

/-- `i < 3` -/
def countTo : Expr :=
  .binary (.var (nameToken "i")) (markToken .less) (.literal (.int 3) 1)

/-- `i = i + 1` -/
def countUp : Expr :=
  .assign (nameToken "i") (.binary (.var (nameToken "i")) (markToken .plus) (.literal (.int 1) 1))

/-- `sum = sum + i` -/
def sumUp : Stmt :=
  .expr (.assign (nameToken "sum")
    (.binary (.var (nameToken "sum")) (markToken .plus) (.var (nameToken "i"))))

/-- The counting loop adds one and two to the sum, and so does the while loop. -/
theorem for_iff_while_summing :
    (summing 4).env.WellFormed ∧
    Eval.stmt 12 (.forLoop countFrom countTo countUp [sumUp]) (summing 4) = .done () (summing 7) ∧
    ∃ n, Eval.stmt n (.block [countFrom, .whileLoop countTo [.block [sumUp], .expr countUp]])
      (summing 4) = .done () (summing 7) := by
  have hwf : (summing 4).env.WellFormed := ⟨rfl, fun i scope h => by simp [summing] at h⟩
  have hfor : Eval.stmt 12 (.forLoop countFrom countTo countUp [sumUp]) (summing 4) =
      .done () (summing 7) := by with_unfolding_all rfl
  have hended : (.done () (summing 7) : Result Interrupt Unit) ≠ .spent := fun h => nomatch h
  have hiff := for_iff_while countFrom countTo countUp [sumUp] (summing 4) hwf _ hended
  exact ⟨hwf, hfor, hiff.mp ⟨12, hfor⟩⟩

end Sugod
