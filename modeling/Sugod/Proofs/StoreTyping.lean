import Sugod.Proofs.History
import Sugod.Proofs.Points

/-!
# Variables hold values of their types

Declaring a variable checks nothing by itself: that an initial value, an argument or an input value
has the declared type is checked by each rule that stores one. The main statement of this module,
`store_typed`, is that no rule forgets to. In every state that a session comes to, also in the midst
of a program that fails or never ends, each slot agrees with its declaration. A call that has a
value has one of its declared type.
-/

set_option autoImplicit false

namespace Sugod

namespace Env

/-- Every slot of every scope agrees with its declaration. -/
def Typed (env : Env) : Prop :=
  ∀ id name slot, (env.slotsAt id).find? name = some slot → slot.WellTyped

/-- A write stays within the type of the slot. -/
theorem Write.typed {env env' : Env} (h : Write env env') (ht : env.Typed) : env'.Typed := by
  obtain ⟨found, -, hty, hv⟩ := h
  rename_i id name slot ty v
  refine AllSlots.setValue ht found ?_
  rw [hty]
  exact Slot.wellTyped_of_ty hv slot.mutable

theorem Change.typed {env env' : Env} (h : Change env env') (ht : env.Typed) : env'.Typed := by
  cases h with
  | write hw => exact hw.typed ht
  | add fresh typed => exact AllSlots.cons ht env.current _ typed

theorem Advance.typed {env env' : Env} (h : Advance env env') (ht : env.Typed) : env'.Typed := by
  cases h with
  | change hc => exact hc.typed ht
  | enter parent => exact AllSlots.push ht parent

/-- Store typing is kept wherever a run gets to. -/
theorem Advances.typed {env env' : Env} (h : Advances env env') (ht : env.Typed) :
    env'.Typed := by
  induction h with
  | refl => exact ht
  | tail _ hstep ih => exact hstep.typed ih

end Env

/-- At first there are the built-in functions only. -/
theorem Session.allSlots_initialEnv {P : Slot → Prop}
    (h : ∀ b, P ⟨none, some (.builtin b), false⟩) : initialEnv.AllSlots P := by
  -- By induction on the functions that are still to be defined, over any environment so far.
  have key : ∀ (bs : List Builtin) (env : Env), env.AllSlots P →
      (bs.foldl (fun env b => env.defineGlobal b.name (.builtin b)) env).AllSlots P := by
    intro bs
    induction bs with
    | nil => exact fun _ henv => henv
    | cons b bs ih => exact fun env henv => ih _ (henv.defineGlobal b.name (h b))
  exact key Builtin.all {} Env.allSlots_empty

/-- The built-in functions are stored as callables. -/
theorem Session.typed_initialEnv : initialEnv.Typed :=
  allSlots_initialEnv fun _ => Slot.wellTyped_callable rfl

theorem Session.Reachable.typed {session : Session} (h : session.Reachable) :
    session.env.Typed :=
  Env.Advances.typed (Env.Changes.advances h.changes) Session.typed_initialEnv

/-! ## Values of calls -/

/-- A value that a function may return: one of its declared type, or `nil` if it declares none. -/
def FunDecl.Returns (decl : FunDecl) (v : Value) : Prop :=
  match decl.returnTy with
  | some ty => v.ty? = some ty
  | none => v = .nil

theorem FunDecl.returns_of_result {decl : FunDecl} {outcome : Except Interrupt Unit} {v : Value}
    (h : decl.result outcome = .ok v) : decl.Returns v := by
  unfold FunDecl.Returns
  unfold FunDecl.result at h
  split at h
  · cases h
  · split at h
    · rename_i hty
      cases h
      rw [hty]
    · cases h
  · split at h
    · rename_i hty
      cases h
      rw [hty]
    · cases h
  · split at h
    · cases h
    · rename_i ty hty
      split at h
      · rename_i hv
        cases h
        rw [hty]
        exact hv
      · cases h

theorem Action.of_settle_eq_done {ε ε' α β : Type} {x : Action ε α} {f : Except ε α → Except ε' β}
    {s s' : State} {b : β} (h : x.settle f s = .done b s') : ∃ outcome, f outcome = .ok b := by
  unfold settle at h
  cases hx : x s with
  | done a mid =>
    simp only [hx] at h
    cases hf : f (.ok a) with
    | ok c =>
      simp only [hf] at h
      cases h
      exact ⟨_, hf⟩
    | error e =>
      simp only [hf] at h
      cases h
  | stop e mid =>
    simp only [hx] at h
    cases hf : f (.error e) with
    | ok c =>
      simp only [hf] at h
      cases h
      exact ⟨_, hf⟩
    | error e =>
      simp only [hf] at h
      cases h
  | spent =>
    simp only [hx] at h
    cases h

/-- A call that has a value has one that the function may return. -/
theorem Eval.returns_of_call {n : Nat} {decl : FunDecl} {args : List Value} {line : Nat}
    {s s' : State} {v : Value} (h : Eval.call n decl args line s = .done v s') :
    decl.Returns v := by
  cases n with
  | zero =>
    rw [Eval.call] at h
    cases h
  | succ n =>
    rw [Eval.call, Action.bind_apply] at h
    cases hcheck : Action.checked line (decl.check args) s with
    | done _ mid =>
      rw [hcheck] at h
      -- Only settling the body gives a value.
      obtain ⟨outcome, hout⟩ := Action.of_settle_eq_done h
      exact FunDecl.returns_of_result hout
    | stop f mid =>
      rw [hcheck] at h
      cases h
    | spent =>
      rw [hcheck] at h
      cases h

/-- A value in a typed slot is data: nothing that can be called, and not `nil`. -/
theorem Slot.WellTyped.isData {slot : Slot} (h : slot.WellTyped) {ty : Ty} {v : Value}
    (hty : slot.ty = some ty) (hv : slot.value = some v) :
    v.tag ≠ .callable ∧ v.tag ≠ .nothing := by
  unfold WellTyped at h
  rw [hty] at h
  have hdata : v.tag.ty? = some ty := h v hv
  constructor <;> intro htag <;> rw [htag] at hdata <;> cases hdata

/-- **Variables hold values of their types**, between the programs of a session and in every state
that a program passes, whether it succeeds, fails or never ends. So functions and `nil` are stored
in no typed variable and no parameter. A call that has a value has one of its declared type, or
`nil` if there is none. -/
theorem store_typed :
    (∀ session : Session, session.Reachable →
      session.env.Typed ∧
      ∀ (program : Program) (st : State),
        Eval.Passes (.stmts program) session.state st → st.env.Typed) ∧
    (∀ (slot : Slot) (ty : Ty) (v : Value), slot.WellTyped → slot.ty = some ty →
      slot.value = some v → v.tag ≠ .callable ∧ v.tag ≠ .nothing) ∧
    (∀ (n : Nat) (decl : FunDecl) (args : List Value) (line : Nat) (s s' : State) (v : Value),
      Eval.call n decl args line s = .done v s' → decl.Returns v) := by
  refine ⟨?_, ?_, ?_⟩
  · intro session h
    refine ⟨h.typed, fun program st hpass => ?_⟩
    exact Env.Advances.typed hpass.advances h.typed
  · intro slot ty v htyped hty hv
    exact htyped.isData hty hv
  · intro n decl args line s s' v h
    exact Eval.returns_of_call h

/-- A function with two parameters of one name, which cannot both be declared. -/
def doubled : FunDecl :=
  ⟨⟨.identifier "f", "f", 1⟩,
    [⟨.int, ⟨.identifier "a", "a", 1⟩⟩, ⟨.int, ⟨.identifier "a", "a", 1⟩⟩], [], none⟩

/-- A program that calls it. -/
def callDoubled : Program :=
  [.expr (.call (.literal (.fn doubled) 2) ⟨.mark .rightParen, ")", 2⟩
    [.literal (.int 3) 2, .literal (.int 4) 2])]

/-- A function that gives a number. -/
def seven : FunDecl :=
  ⟨⟨.identifier "g", "g", 1⟩, [],
    [.ret ⟨.mark .iuli, "IULI", 1⟩ (some (.literal (.int 7) 1))], some .int⟩

/-- The state between the two parameters, which the program passes before it fails, is typed; and
the function that gives a number may return it. -/
theorem store_typed_doubled :
    (∃ st slot, Eval.Passes (.stmts callDoubled) (Session.start {}).state st ∧
      (st.env.slotsAt 1).find? "a" = some slot ∧ slot.ty = some .int ∧ slot.WellTyped) ∧
    (∃ s', Eval.call 4 seven [] 2 (Session.start {}).state = .done (.int 7) s' ∧
      seven.Returns (.int 7)) := by
  have hcheck : doubled.check [.int 3, .int 4] 0 = .ok () := rfl
  have hsplit : doubled.params.zip [Value.int 3, Value.int 4] =
      [(⟨Ty.int, ⟨.identifier "a", "a", 1⟩⟩, Value.int 3)] ++
        [(⟨Ty.int, ⟨.identifier "a", "a", 1⟩⟩, Value.int 4)] := rfl
  have hpass : Eval.Passes (.stmts callDoubled) (Session.start {}).state _ :=
    .part .first (.part .evaluated (.part (.invoked (n := 4) (m := 4) rfl rfl)
      (.binding hcheck hsplit rfl)))
  have hreach : (Session.start {}).Reachable := ⟨{}, .refl⟩
  have hcall : Eval.call 4 seven [] 2 (Session.start {}).state = .done (.int 7) _ := rfl
  exact ⟨⟨_, _, hpass, rfl, rfl, (store_typed.1 _ hreach).2 _ _ hpass 1 "a" _ rfl⟩,
    ⟨_, hcall, store_typed.2.2 4 seven [] 2 _ _ _ hcall⟩⟩

end Sugod
