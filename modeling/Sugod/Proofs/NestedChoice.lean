import Sugod.Proofs.CountingLoop

/-!
# A conditional with further conditions is a nested one

`KUNG .. KUNG DILI .. KUNG DILI .. KUNG WALA ..` tries one condition after another. The main
statement, `choose_iff_nested`, says that it does what a conditional does that has a single
condition and holds the rest of the chain, as a conditional by itself, in what is done otherwise;
and so, again and again, what a chain of nested conditionals does (`Stmt.nestedChoice`).

In the nested form every later condition is evaluated one scope deeper. Nothing is declared in that
scope, because a conditional declares only inside of its branches, so by `Action.nested_eq_self` no
one can tell. The numbers of steps differ, so statements are compared for all of them at once
(`Eval.EndsAs`).
-/

set_option autoImplicit false

namespace Sugod

/-- The conditional that has each further branch of a chain inside of what is done otherwise. -/
def Stmt.nestedChoice (first : Branch) : List Branch → Option (List Stmt) → Stmt
  | [], otherwise => .choose first [] otherwise
  | second :: others, otherwise => .choose first [] (some [nestedChoice second others otherwise])

namespace Eval

open Sugod.Action

/-- Whatever the first statement ends with, from a well-formed state, the second one ends with. -/
def EndsAs (x y : Stmt) : Prop :=
  ∀ n, ∃ m, (stmt n x).WellGrows (stmt m y)

theorem EndsAs.refl (x : Stmt) : EndsAs x x :=
  fun n => ⟨n, (Grows.refl _).wellGrows⟩

theorem EndsAs.trans {x y z : Stmt} (hxy : EndsAs x y) (hyz : EndsAs y z) : EndsAs x z := by
  intro n
  obtain ⟨m, hm⟩ := hxy n
  obtain ⟨k, hk⟩ := hyz m
  exact ⟨k, hm.trans hk⟩

/-- Statements that end as each other have the same results. -/
theorem EndsAs.exists_iff {x y : Stmt} (hxy : EndsAs x y) (hyx : EndsAs y x) {s : State}
    (hwf : s.env.WellFormed) {r : Result Interrupt Unit} (hr : r ≠ .spent) :
    (∃ n, stmt n x s = r) ↔ ∃ n, stmt n y s = r := by
  constructor
  · rintro ⟨n, rfl⟩
    obtain ⟨m, hm⟩ := hxy n
    exact ⟨m, hm s hwf hr⟩
  · rintro ⟨n, rfl⟩
    obtain ⟨m, hm⟩ := hyx n
    exact ⟨m, hm s hwf hr⟩

/-! ## Branches -/

variable {bs bs' : List Branch} {o o' : Option (List Stmt)}

theorem branches_mono {n m : Nat} (h : n ≤ m) (bs : List Branch) (o : Option (List Stmt)) :
    (branches n bs o).Grows (branches m bs o) :=
  grows_of_le (fun k => (stepGrows k).branches bs o) h

/-- Trying branches declares nothing in the scope around them. -/
theorem branches_simulates (n b : Nat) (bs : List Branch) (o : Option (List Stmt)) :
    (branches n bs o).Simulates (Env.Inserted b) :=
  ((Env.Inserted.simulation b).compositional.holds n).branches bs o

/-- A statement that is all there is otherwise runs in a scope of its own. -/
theorem branches_singleton (n : Nat) (x : Stmt) :
    branches (n + 3) [] (some [x]) = nested (stmt (n + 1) x) := by
  rw [branches, stmts, stmts]
  simp only [bind_pure_unit]

/-- Behind the same first branch, what is tried next may be exchanged. -/
theorem choose_endsAs {b : Branch}
    (hrest : ∀ n, ∃ m, (branches n bs o).WellGrows (branches m bs' o')) :
    EndsAs (.choose b bs o) (.choose b bs' o') := by
  intro n
  obtain ⟨m, hm⟩ := hrest n
  refine ⟨max n m + 2, ?_⟩
  have hmore := (stmt_mono (Nat.le_add_right n 2) (.choose b bs o)).wellGrows
  refine hmore.trans ?_
  rw [stmt, stmt, branches, branches]
  refine (cond_grows b.cond (by omega)).wellGrows.bind (cond_affects b.cond n) fun holds => ?_
  cases holds with
  | true => exact (stmts_mono (by omega) b.body).nested.wellGrows
  | false => exact hm.trans (branches_mono (by omega) bs' o').wellGrows

/-! ## One level -/

variable (first second : Branch) (others : List Branch) (otherwise : Option (List Stmt))

/-- The rest of a chain may be tried one scope deeper. -/
theorem chain_endsAs_nested :
    EndsAs (.choose first (second :: others) otherwise)
      (.choose first [] (some [.choose second others otherwise])) := by
  refine choose_endsAs fun n => ⟨n + 3, ?_⟩
  rw [branches_singleton, stmt]
  exact (wellGrows_nested fun b => branches_simulates n b (second :: others) otherwise).1

/-- A conditional that is all there is otherwise need not be tried in a scope of its own. -/
theorem nested_endsAs_chain :
    EndsAs (.choose first [] (some [.choose second others otherwise]))
      (.choose first (second :: others) otherwise) := by
  refine choose_endsAs fun n => ⟨n, ?_⟩
  have hmore := branches_mono (Nat.le_add_right n 3) [] (some [.choose second others otherwise])
  refine hmore.wellGrows.trans ?_
  rw [branches_singleton, stmt]
  exact (wellGrows_nested fun b => branches_simulates n b (second :: others) otherwise).2

/-! ## All levels -/

/-- A statement that is all there is otherwise may be exchanged. -/
theorem EndsAs.asOtherwise {x y : Stmt} (hxy : EndsAs x y) :
    EndsAs (.choose first [] (some [x])) (.choose first [] (some [y])) := by
  refine choose_endsAs fun n => ?_
  obtain ⟨m, hm⟩ := hxy (n + 1)
  refine ⟨m + 3, ?_⟩
  have hmore := branches_mono (Nat.le_add_right n 3) [] (some [x])
  refine hmore.wellGrows.trans ?_
  rw [branches_singleton, branches_singleton]
  exact (hm.trans (stmt_mono (Nat.le_succ m) y).wellGrows).nested

theorem chain_endsAs_nestedChoice :
    EndsAs (.choose first others otherwise) (Stmt.nestedChoice first others otherwise) ∧
      EndsAs (Stmt.nestedChoice first others otherwise) (.choose first others otherwise) := by
  -- The first level is taken apart, and the levels below it by induction.
  induction others generalizing first with
  | nil => exact ⟨.refl _, .refl _⟩
  | cons second others ih =>
    obtain ⟨hnest, hchain⟩ := ih second
    rw [Stmt.nestedChoice]
    constructor
    · exact (chain_endsAs_nested first second others otherwise).trans (hnest.asOtherwise first)
    · exact (hchain.asOtherwise first).trans (nested_endsAs_chain first second others otherwise)

end Eval

/-- **A conditional with further conditions is a nested one.** From every well-formed state, a chain
of conditions ends exactly if the conditional does that holds the rest of the chain in what is done
otherwise, and then in the same way: done, stopped by the same fault, or stopped by the same return,
in the same state. The same holds of the chain in its fully nested form. -/
theorem choose_iff_nested (first second : Branch) (others : List Branch)
    (otherwise : Option (List Stmt)) (s : State) (hwf : s.env.WellFormed)
    (r : Result Interrupt Unit) (hr : r ≠ .spent) :
    ((∃ n, Eval.stmt n (.choose first (second :: others) otherwise) s = r) ↔
      ∃ n, Eval.stmt n (.choose first [] (some [.choose second others otherwise])) s = r) ∧
    ((∃ n, Eval.stmt n (.choose first (second :: others) otherwise) s = r) ↔
      ∃ n, Eval.stmt n (Stmt.nestedChoice first (second :: others) otherwise) s = r) := by
  constructor
  · have hnest := Eval.chain_endsAs_nested first second others otherwise
    exact hnest.exists_iff (Eval.nested_endsAs_chain first second others otherwise) hwf hr
  · obtain ⟨hnest, hchain⟩ := Eval.chain_endsAs_nestedChoice first (second :: others) otherwise
    exact hnest.exists_iff hchain hwf hr

/-! ## A chain whose conditions assign -/

/-- `sum < 0`, with an empty body -/
def ifNegative : Branch :=
  ⟨.binary (.var (nameToken "sum")) (markToken .less) (.literal (.int 0) 1), []⟩

/-- `(sum = 5) > 9`, with an empty body -/
def ifAssignedLarge : Branch :=
  ⟨.binary (.grouping (.assign (nameToken "sum") (.literal (.int 5) 1))) (markToken .greater)
    (.literal (.int 9) 1), []⟩

/-- `sum == 5`, and then a variable of the branch hides the sum -/
def ifFive : Branch :=
  ⟨.binary (.var (nameToken "sum")) (markToken .equalEqual) (.literal (.int 5) 1),
    [.declare (nameToken "sum") .int (some (.literal (.int 8) 1)) true]⟩

/-- The second condition assigns the variable, and the third one sees it, two scopes deeper. -/
theorem choose_iff_nested_assigning :
    (summing 4).env.WellFormed ∧
    Eval.stmt 12 (.choose ifNegative [ifAssignedLarge, ifFive] (some [])) (summing 4) =
      .done () (summing 5) ∧
    (∃ n, Eval.stmt n (.choose ifNegative [] (some [.choose ifAssignedLarge [ifFive] (some [])]))
      (summing 4) = .done () (summing 5)) ∧
    ∃ n, Eval.stmt n (.choose ifNegative [] (some [.choose ifAssignedLarge []
      (some [.choose ifFive [] (some [])])])) (summing 4) = .done () (summing 5) := by
  have hwf : (summing 4).env.WellFormed := ⟨rfl, fun i scope h => by simp [summing] at h⟩
  have hchain : Eval.stmt 12 (.choose ifNegative [ifAssignedLarge, ifFive] (some [])) (summing 4) =
      .done () (summing 5) := by with_unfolding_all rfl
  have hended : (.done () (summing 5) : Result Interrupt Unit) ≠ .spent := by
    intro h
    cases h
  have hiff := choose_iff_nested ifNegative ifAssignedLarge [ifFive] (some []) (summing 4) hwf _
    hended
  exact ⟨hwf, hchain, hiff.1.mp ⟨12, hchain⟩, hiff.2.mp ⟨12, hchain⟩⟩

end Sugod
