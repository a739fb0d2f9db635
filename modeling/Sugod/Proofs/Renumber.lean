import Sugod.Tree.Equal
import Sugod.Env.Lemmas
import Sugod.Proofs.Regular

/-!
# Other line numbers

Trees, values and variables with a function applied to all line numbers in them. What the operations
on values and environments do does not depend on lines, so they commute with it; what is said about
values, such as their text, stays the same.

Only the comparison of functions looks at lines: two functions are equal if their whole declarations
are. A function compared with itself gives the same answer with other lines (`equal_renumber_self`),
two functions of different names are different anyway.
-/

set_option autoImplicit false

namespace Sugod

/-! ## Trees -/

/-- A token with another line number. -/
def Token.renumber (f : Nat → Nat) (t : Token) : Token :=
  { t with line := f t.line }

/-- A parameter with another line number. -/
def Param.renumber (f : Nat → Nat) (p : Param) : Param :=
  { p with name := p.name.renumber f }

mutual

/-- A value with other line numbers: only functions have any. -/
def Value.renumber (f : Nat → Nat) : Value → Value
  | .fn decl => .fn (decl.renumber f)
  | v => v
termination_by structural v => v

/-- A function with other line numbers. -/
def FunDecl.renumber (f : Nat → Nat) : FunDecl → FunDecl
  | ⟨name, params, body, returnTy⟩ =>
    ⟨name.renumber f, params.map (Param.renumber f), stmtsRenumber f body, returnTy⟩
termination_by structural decl => decl

/-- An expression with other line numbers. -/
def Expr.renumber (f : Nat → Nat) : Expr → Expr
  | .literal v line => .literal (v.renumber f) (f line)
  | .var name => .var (name.renumber f)
  | .assign name e => .assign (name.renumber f) (e.renumber f)
  | .unary op e => .unary (op.renumber f) (e.renumber f)
  | .binary l op r => .binary (l.renumber f) (op.renumber f) (r.renumber f)
  | .logical l op r => .logical (l.renumber f) (op.renumber f) (r.renumber f)
  | .grouping e => .grouping (e.renumber f)
  | .call callee paren args => .call (callee.renumber f) (paren.renumber f) (exprsRenumber f args)
termination_by structural e => e

/-- Expressions with other line numbers. -/
def exprsRenumber (f : Nat → Nat) : List Expr → List Expr
  | [] => []
  | e :: es => e.renumber f :: exprsRenumber f es
termination_by structural es => es

/-- An expression that may be absent with other line numbers. -/
def exprRenumber? (f : Nat → Nat) : Option Expr → Option Expr
  | none => none
  | some e => some (e.renumber f)
termination_by structural e => e

/-- A statement with other line numbers. -/
def Stmt.renumber (f : Nat → Nat) : Stmt → Stmt
  | .display e => .display (e.renumber f)
  | .expr e => .expr (e.renumber f)
  | .accept names => .accept (names.map (Token.renumber f))
  | .declare name ty init mutable => .declare (name.renumber f) ty (exprRenumber? f init) mutable
  | .block body => .block (stmtsRenumber f body)
  | .choose first others otherwise =>
    .choose (first.renumber f) (branchesRenumber f others) (bodyRenumber? f otherwise)
  | .whileLoop cond body => .whileLoop (cond.renumber f) (stmtsRenumber f body)
  | .forLoop init cond increment body =>
    .forLoop (init.renumber f) (cond.renumber f) (increment.renumber f) (stmtsRenumber f body)
  | .ret keyword value => .ret (keyword.renumber f) (exprRenumber? f value)
  | .fn decl => .fn (decl.renumber f)
termination_by structural s => s

/-- Statements with other line numbers. -/
def stmtsRenumber (f : Nat → Nat) : List Stmt → List Stmt
  | [] => []
  | s :: ss => s.renumber f :: stmtsRenumber f ss
termination_by structural ss => ss

/-- A body that may be absent with other line numbers. -/
def bodyRenumber? (f : Nat → Nat) : Option (List Stmt) → Option (List Stmt)
  | none => none
  | some body => some (stmtsRenumber f body)
termination_by structural body => body

/-- A branch with other line numbers. -/
def Branch.renumber (f : Nat → Nat) : Branch → Branch
  | ⟨cond, body⟩ => ⟨cond.renumber f, stmtsRenumber f body⟩
termination_by structural b => b

/-- Branches with other line numbers. -/
def branchesRenumber (f : Nat → Nat) : List Branch → List Branch
  | [] => []
  | b :: bs => b.renumber f :: branchesRenumber f bs
termination_by structural bs => bs

end

section Trees

variable (f : Nat → Nat)

@[simp] theorem exprsRenumber_eq_map (es : List Expr) :
    exprsRenumber f es = es.map (Expr.renumber f) := by
  induction es with
  | nil => rfl
  | cons e es ih => rw [exprsRenumber, ih, List.map_cons]

@[simp] theorem exprRenumber?_eq_map (e : Option Expr) :
    exprRenumber? f e = e.map (Expr.renumber f) := by
  cases e <;> rfl

@[simp] theorem stmtsRenumber_eq_map (ss : List Stmt) :
    stmtsRenumber f ss = ss.map (Stmt.renumber f) := by
  induction ss with
  | nil => rfl
  | cons s ss ih => rw [stmtsRenumber, ih, List.map_cons]

@[simp] theorem bodyRenumber?_eq_map (body : Option (List Stmt)) :
    bodyRenumber? f body = body.map (List.map (Stmt.renumber f)) := by
  cases body with
  | none => rfl
  | some body => rw [bodyRenumber?, stmtsRenumber_eq_map, Option.map_some]

@[simp] theorem branchesRenumber_eq_map (bs : List Branch) :
    branchesRenumber f bs = bs.map (Branch.renumber f) := by
  induction bs with
  | nil => rfl
  | cons b bs ih => rw [branchesRenumber, ih, List.map_cons]

@[simp] theorem FunDecl.name_renumber (decl : FunDecl) :
    (decl.renumber f).name = decl.name.renumber f := by
  cases decl
  rfl

@[simp] theorem FunDecl.params_renumber (decl : FunDecl) :
    (decl.renumber f).params = decl.params.map (Param.renumber f) := by
  cases decl
  rfl

@[simp] theorem FunDecl.body_renumber (decl : FunDecl) :
    (decl.renumber f).body = decl.body.map (Stmt.renumber f) := by
  cases decl
  exact stmtsRenumber_eq_map f _

@[simp] theorem FunDecl.returnTy_renumber (decl : FunDecl) :
    (decl.renumber f).returnTy = decl.returnTy := by
  cases decl
  rfl

@[simp] theorem Branch.cond_renumber (b : Branch) : (b.renumber f).cond = b.cond.renumber f := by
  cases b
  rfl

@[simp] theorem Branch.body_renumber (b : Branch) :
    (b.renumber f).body = b.body.map (Stmt.renumber f) := by
  cases b
  exact stmtsRenumber_eq_map f _

theorem Expr.line_renumber : ∀ e : Expr, (e.renumber f).line = f e.line
  | .literal _ _ => rfl
  | .var _ => rfl
  | .assign _ _ => rfl
  | .unary _ _ => rfl
  | .binary _ _ _ => rfl
  | .logical _ _ _ => rfl
  | .grouping inner => Expr.line_renumber inner
  | .call _ _ _ => rfl

theorem Stmt.isRet_renumber (s : Stmt) : (s.renumber f).isRet = s.isRet := by
  cases s <;> rfl

end Trees

/-! ## Functions compared with themselves -/

section Equal

variable (f : Nat → Nat)

theorem Token.equal_renumber_self (t : Token) :
    (t.renumber f).equal (t.renumber f) = t.equal t := by
  simp [Token.equal, Token.renumber]

theorem Token.equalAll_renumber_self (ts : List Token) :
    Token.equalAll (ts.map (Token.renumber f)) (ts.map (Token.renumber f)) =
      Token.equalAll ts ts := by
  induction ts with
  | nil => rfl
  | cons t ts ih => simp only [List.map_cons, Token.equalAll, t.equal_renumber_self, ih]

theorem Param.equalAll_renumber_self (ps : List Param) :
    Param.equalAll (ps.map (Param.renumber f)) (ps.map (Param.renumber f)) =
      Param.equalAll ps ps := by
  induction ps with
  | nil => rfl
  | cons p ps ih =>
    simp only [List.map_cons, Param.equalAll, Param.equal, Param.renumber,
      p.name.equal_renumber_self, ih]

mutual

theorem Value.equal_renumber_self : ∀ v : Value, (v.renumber f).equal (v.renumber f) = v.equal v
  | .fn decl => decl.equal_renumber_self
  | .int _ => rfl
  | .float _ => rfl
  | .char _ => rfl
  | .bool _ => rfl
  | .str _ => rfl
  | .builtin _ => rfl
  | .nil => rfl
termination_by structural v => v

/-- A function compared with itself gives the same answer with other line numbers. -/
theorem FunDecl.equal_renumber_self :
    ∀ decl : FunDecl, (decl.renumber f).equal (decl.renumber f) = decl.equal decl
  | ⟨name, params, body, returnTy⟩ => by
    simp only [FunDecl.renumber, FunDecl.equal, name.equal_renumber_self,
      Param.equalAll_renumber_self, stmtsEqual_renumber_self body]
termination_by structural decl => decl

theorem Expr.equal_renumber_self : ∀ e : Expr, (e.renumber f).equal (e.renumber f) = e.equal e
  | .literal v line => by simp [Expr.renumber, Expr.equal, v.equal_renumber_self]
  | .var name => name.equal_renumber_self f
  | .assign name e => by
    simp only [Expr.renumber, Expr.equal, name.equal_renumber_self, e.equal_renumber_self]
  | .unary op e => by
    simp only [Expr.renumber, Expr.equal, op.equal_renumber_self, e.equal_renumber_self]
  | .binary l op r => by
    simp only [Expr.renumber, Expr.equal, op.equal_renumber_self, l.equal_renumber_self,
      r.equal_renumber_self]
  | .logical l op r => by
    simp only [Expr.renumber, Expr.equal, op.equal_renumber_self, l.equal_renumber_self,
      r.equal_renumber_self]
  | .grouping e => e.equal_renumber_self
  | .call callee paren args => by
    simp only [Expr.renumber, Expr.equal, paren.equal_renumber_self, callee.equal_renumber_self,
      exprsEqual_renumber_self args]
termination_by structural e => e

theorem exprsEqual_renumber_self :
    ∀ es : List Expr, exprsEqual (exprsRenumber f es) (exprsRenumber f es) = exprsEqual es es
  | [] => rfl
  | e :: es => by
    simp only [exprsRenumber, exprsEqual, e.equal_renumber_self, exprsEqual_renumber_self es]
termination_by structural es => es

theorem exprEqual?_renumber_self :
    ∀ e : Option Expr, exprEqual? (exprRenumber? f e) (exprRenumber? f e) = exprEqual? e e
  | none => rfl
  | some e => e.equal_renumber_self
termination_by structural e => e

theorem Stmt.equal_renumber_self : ∀ s : Stmt, (s.renumber f).equal (s.renumber f) = s.equal s
  | .display e => e.equal_renumber_self
  | .expr e => e.equal_renumber_self
  | .accept names => Token.equalAll_renumber_self f names
  | .declare name ty init mutable => by
    simp only [Stmt.renumber, Stmt.equal, name.equal_renumber_self, exprEqual?_renumber_self init]
  | .block body => stmtsEqual_renumber_self body
  | .choose first others otherwise => by
    simp only [Stmt.renumber, Stmt.equal, first.equal_renumber_self,
      branchesEqual_renumber_self others, bodyEqual?_renumber_self otherwise]
  | .whileLoop cond body => by
    simp only [Stmt.renumber, Stmt.equal, cond.equal_renumber_self, stmtsEqual_renumber_self body]
  | .forLoop init cond increment body => by
    simp only [Stmt.renumber, Stmt.equal, init.equal_renumber_self, cond.equal_renumber_self,
      increment.equal_renumber_self, stmtsEqual_renumber_self body]
  | .ret keyword value => by
    simp only [Stmt.renumber, Stmt.equal, keyword.equal_renumber_self,
      exprEqual?_renumber_self value]
  | .fn decl => decl.equal_renumber_self
termination_by structural s => s

theorem stmtsEqual_renumber_self :
    ∀ ss : List Stmt, stmtsEqual (stmtsRenumber f ss) (stmtsRenumber f ss) = stmtsEqual ss ss
  | [] => rfl
  | s :: ss => by
    simp only [stmtsRenumber, stmtsEqual, s.equal_renumber_self, stmtsEqual_renumber_self ss]
termination_by structural ss => ss

theorem bodyEqual?_renumber_self : ∀ body : Option (List Stmt),
    bodyEqual? (bodyRenumber? f body) (bodyRenumber? f body) = bodyEqual? body body
  | none => rfl
  | some body => stmtsEqual_renumber_self body
termination_by structural body => body

theorem Branch.equal_renumber_self : ∀ b : Branch, (b.renumber f).equal (b.renumber f) = b.equal b
  | ⟨cond, body⟩ => by
    simp only [Branch.renumber, Branch.equal, cond.equal_renumber_self,
      stmtsEqual_renumber_self body]
termination_by structural b => b

theorem branchesEqual_renumber_self : ∀ bs : List Branch,
    branchesEqual (branchesRenumber f bs) (branchesRenumber f bs) = branchesEqual bs bs
  | [] => rfl
  | b :: bs => by
    simp only [branchesRenumber, branchesEqual, b.equal_renumber_self,
      branchesEqual_renumber_self bs]
termination_by structural bs => bs

end

end Equal

/-! ## Values -/

namespace Value

variable (f : Nat → Nat)

@[simp] theorem tag_renumber (v : Value) : (v.renumber f).tag = v.tag := by
  cases v <;> rfl

@[simp] theorem ty?_renumber (v : Value) : (v.renumber f).ty? = v.ty? :=
  congrArg Tag.ty? (v.tag_renumber f)

@[simp] theorem truth?_renumber (v : Value) : (v.renumber f).truth? = v.truth? := by
  cases v <;> rfl

@[simp] theorem text_renumber (v : Value) : (v.renumber f).text = v.text := by
  cases v with
  | fn decl => simp [renumber, text, Token.renumber]
  | _ => rfl

@[simp] theorem quoted_renumber (v : Value) : (v.renumber f).quoted = v.quoted := by
  cases v with
  | fn decl => exact text_renumber f (.fn decl)
  | _ => rfl

/-- A value that is no function has no line numbers. -/
theorem renumber_eq_self {v : Value} (hv : v.Known fun _ => False) : v.renumber f = v := by
  cases v with
  | fn decl => exact (hv decl rfl).elim
  | _ => rfl

/-- A value that a variable with a type can hold is no function. -/
theorem known_of_ty {known : FunDecl → Prop} {v : Value} {ty : Ty} (hv : v.ty? = some ty) :
    v.Known known := by
  rintro decl rfl
  cases hv

end Value

/-! ## Variables -/

/-- A variable with other line numbers in its value. -/
def Slot.renumber (f : Nat → Nat) (slot : Slot) : Slot :=
  { slot with value := slot.value.map (Value.renumber f) }

/-- The variables of a scope with other line numbers in their values. -/
def Slots.renumber (f : Nat → Nat) (slots : Slots) : Slots :=
  slots.map fun entry => (entry.1, entry.2.renumber f)

/-- A scope with other line numbers in the values of its variables. -/
def Scope.renumber (f : Nat → Nat) (scope : Scope) : Scope :=
  { scope with slots := scope.slots.renumber f }

/-- An environment with other line numbers in the values of its variables. -/
def Env.renumber (f : Nat → Nat) (env : Env) : Env :=
  { env with globals := env.globals.renumber f, locals := env.locals.map (Scope.renumber f) }

namespace Slots

variable (f : Nat → Nat)

@[simp] theorem find?_renumber (slots : Slots) (name : String) :
    (slots.renumber f).find? name = (slots.find? name).map (Slot.renumber f) := by
  induction slots with
  | nil => rfl
  | cons entry rest ih =>
    obtain ⟨key, slot⟩ := entry
    show Slots.find? ((key, slot.renumber f) :: Slots.renumber f rest) name = _
    rw [find?_cons, find?_cons, ih]
    split <;> rfl

theorem setValue_renumber (name : String) (v : Value) (slots : Slots) :
    setValue name (v.renumber f) (slots.renumber f) = (setValue name v slots).renumber f := by
  induction slots with
  | nil => rfl
  | cons entry rest ih =>
    obtain ⟨key, slot⟩ := entry
    show setValue name (v.renumber f) ((key, slot.renumber f) :: Slots.renumber f rest) = _
    unfold setValue
    split
    · rfl
    · rw [ih]
      rfl

end Slots

namespace Env

variable (f : Nat → Nat)

@[simp] theorem current_renumber (env : Env) : (env.renumber f).current = env.current := rfl

@[simp] theorem getElem?_locals_renumber (env : Env) (i : Nat) :
    (env.renumber f).locals[i]? = env.locals[i]?.map (Scope.renumber f) :=
  Array.getElem?_map

@[simp] theorem slotsAt_renumber (env : Env) (id : ScopeId) :
    (env.renumber f).slotsAt id = (env.slotsAt id).renumber f := by
  cases id with
  | zero => rfl
  | succ i =>
    simp only [slotsAt, getElem?_locals_renumber]
    cases env.locals[i]? <;> rfl

@[simp] theorem parent?_renumber (env : Env) (id : ScopeId) :
    (env.renumber f).parent? id = env.parent? id := by
  cases id with
  | zero => rfl
  | succ i =>
    simp only [parent?, getElem?_locals_renumber]
    cases env.locals[i]? <;> rfl

theorem modifySlots_renumber {g h : Slots → Slots}
    (hgh : ∀ slots, h (slots.renumber f) = (g slots).renumber f) (env : Env) (id : ScopeId) :
    (env.renumber f).modifySlots h id = (env.modifySlots g id).renumber f := by
  cases id with
  | zero =>
    unfold modifySlots renumber
    simp only [hgh]
  | succ i =>
    have hlocals : (env.renumber f).locals.modify i (fun scope => ⟨h scope.slots, scope.parent⟩) =
        (env.locals.modify i fun scope => ⟨g scope.slots, scope.parent⟩).map
          (Scope.renumber f) := by
      refine Array.ext_getElem? fun j => ?_
      rw [Array.getElem?_modify, Array.getElem?_map, Array.getElem?_modify,
        getElem?_locals_renumber]
      by_cases hij : i = j
      · rw [if_pos hij, if_pos hij]
        cases env.locals[j]? with
        | none => rfl
        | some scope => simp [Scope.renumber, hgh]
      · rw [if_neg hij, if_neg hij]
    exact congrArg (Env.mk (env.globals.renumber f) · env.current) hlocals

theorem push_renumber (parent : ScopeId) (env : Env) :
    (env.renumber f).push parent = (env.push parent).renumber f := by
  simp [push, renumber, Scope.renumber, Slots.renumber]

theorem pop_renumber (previous : ScopeId) (env : Env) :
    (env.renumber f).pop previous = (env.pop previous).renumber f := by
  simp [pop, renumber]

@[simp] theorem resolveFrom_renumber (env : Env) (name : String) (id : ScopeId) :
    (env.renumber f).resolveFrom name id = env.resolveFrom name id := by
  refine resolveFrom_congr (fun other => ?_) (fun other => parent?_renumber f env other) id
  rw [slotsAt_renumber, Slots.find?_renumber, Option.isSome_map]

@[simp] theorem lookup?_renumber (env : Env) (name : String) :
    (env.renumber f).lookup? name = (env.lookup? name).map (Slot.renumber f) := by
  unfold lookup? resolve
  rw [resolveFrom_renumber, current_renumber]
  cases env.resolveFrom name env.current with
  | none => rfl
  | some id =>
    show ((env.renumber f).slotsAt id).find? name = _
    rw [slotsAt_renumber, Slots.find?_renumber]

theorem get_renumber (env : Env) (name : String) :
    (env.renumber f).get name = (env.get name).map (Value.renumber f) := by
  unfold get
  rw [lookup?_renumber]
  cases env.lookup? name with
  | none => rfl
  | some slot =>
    obtain ⟨ty, value, mutable⟩ := slot
    cases value <;> rfl

theorem declare_renumber (env : Env) (name : String) (slot : Slot) :
    (env.renumber f).declare name (slot.renumber f) =
      (env.declare name slot).map (Env.renumber f) := by
  unfold declare
  rw [current_renumber, slotsAt_renumber, Slots.find?_renumber, Option.isSome_map]
  by_cases hfound : ((env.slotsAt env.current).find? name).isSome
  · rw [if_pos hfound, if_pos hfound]
    rfl
  · rw [if_neg hfound, if_neg hfound]
    have hcons : ∀ slots : Slots, (name, slot.renumber f) :: slots.renumber f =
      Slots.renumber f ((name, slot) :: slots) := fun _ => rfl
    exact congrArg Except.ok (modifySlots_renumber f hcons env env.current)

theorem assign_renumber (env : Env) (name : String) (v : Value) :
    (env.renumber f).assign name (v.renumber f) = (env.assign name v).map (Env.renumber f) := by
  unfold assign resolve
  rw [resolveFrom_renumber, current_renumber]
  cases env.resolveFrom name env.current with
  | none => rfl
  | some id =>
    simp only [slotsAt_renumber, Slots.find?_renumber]
    cases (env.slotsAt id).find? name with
    | none => rfl
    | some slot =>
      obtain ⟨ty, value, mutable⟩ := slot
      cases mutable with
      | false => rfl
      | true =>
        cases ty with
        | none => rfl
        | some ty =>
          simp only [Option.map_some, Slot.renumber, Value.ty?_renumber, Value.quoted_renumber,
            Value.tag_renumber, if_true]
          by_cases hty : v.ty? = some ty
          · rw [if_pos hty, if_pos hty]
            exact congrArg Except.ok
              (modifySlots_renumber f (Slots.setValue_renumber f name v) env id)
          · rw [if_neg hty, if_neg hty]
            rfl

end Env

end Sugod
