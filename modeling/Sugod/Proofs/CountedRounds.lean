import Sugod.Grammar.Statement
import Sugod.Proofs.CountingLoop
import Sugod.Proofs.Ending
import Sugod.Proofs.Untouched

/-!
# A counting loop counts

A loop that declares a counter, compares it with a bound and counts it up by one runs its body once
for each number from the first one up to the bound, with the counter bound to that number. The main
statement is `counting_loop_counts`.

The scope of the loop holds the counter and nothing else (`Env.Counting`). In such a state the
condition and the increment do what they should, and the body keeps it that way, because it does not
assign the counter (`Eval.stmts_spares`) and declares its own variables in a scope of its own. One
induction over the numbers is left (`Eval.loop_alike_rounds`).

The loop and the rounds do not take the same numbers of steps. They are compared by what they come
to (`Action.Alike`), after the scope of the loop has been left, because the last value of the
counter differs.
-/

set_option autoImplicit false

namespace Sugod

/-! ## Numbers in a row -/

/-- The numbers from `a` up to `b`, without `b`. -/
def counts (a b : Int64) : List Int64 :=
  (List.range (b.toInt - a.toInt).toNat).map fun j : Nat => Int64.ofInt (a.toInt + j)

section counts

variable {a b : Int64}

/-- A number below another one has a successor. -/
theorem toInt_add_one_of_lt (h : a < b) : (a + 1).toInt = a.toInt + 1 := by
  have hlt : a.toInt < b.toInt := Int64.lt_iff_toInt_lt.mp h
  have hlower : -2 ^ 63 ≤ a.toInt := a.le_toInt
  have hupper : b.toInt < 2 ^ 63 := b.toInt_lt
  have hsum : Int64.ofInt (a.toInt + 1) = a + 1 := by
    rw [Int64.ofInt_add, Int64.ofInt_toInt]
    rfl
  rw [← hsum, Int64.toInt_ofInt_of_le (by omega) (by omega)]

theorem counts_of_le (h : b ≤ a) : counts a b = [] := by
  have hle : b.toInt ≤ a.toInt := Int64.le_iff_toInt_le.mp h
  have hnone : (b.toInt - a.toInt).toNat = 0 := by omega
  rw [counts, hnone]
  rfl

theorem counts_of_lt (h : a < b) : counts a b = a :: counts (a + 1) b := by
  have hlt : a.toInt < b.toInt := Int64.lt_iff_toInt_lt.mp h
  have hnext : (a + 1).toInt = a.toInt + 1 := toInt_add_one_of_lt h
  have hlength : (b.toInt - a.toInt).toNat = (b.toInt - (a + 1).toInt).toNat + 1 := by omega
  rw [counts, counts, hlength, List.range_succ_eq_map, List.map_cons, List.map_map]
  congr 1
  · simp
  · refine List.map_congr_left fun j _ => ?_
    rw [hnext]
    show Int64.ofInt (a.toInt + ((j + 1 : Nat) : Int)) = _
    congr 1
    omega

/-- The numbers are the whole numbers that they stand for; none of them has wrapped around. -/
theorem map_toInt_counts (a b : Int64) :
    (counts a b).map Int64.toInt =
      (List.range (b.toInt - a.toInt).toNat).map fun j : Nat => a.toInt + j := by
  rw [counts, List.map_map]
  refine List.map_congr_left fun j hj => ?_
  have hj : j < (b.toInt - a.toInt).toNat := List.mem_range.mp hj
  have hlower : -2 ^ 63 ≤ a.toInt := a.le_toInt
  have hupper : b.toInt < 2 ^ 63 := b.toInt_lt
  exact Int64.toInt_ofInt_of_le (by omega) (by omega)

end counts

/-! ## The scope of the counter -/

/-- A mutable variable with a whole number. -/
def Slot.counter (k : Int64) : Slot :=
  ⟨some .int, some (.int k), true⟩

namespace Slots

theorem map_fst_setValue (name : String) (v : Value) (slots : Slots) :
    (setValue name v slots).map Prod.fst = slots.map Prod.fst := by
  induction slots with
  | nil => rfl
  | cons entry rest ih =>
    unfold setValue
    split
    · rfl
    · rw [List.map_cons, List.map_cons, ih]

/-- The slots of a scope with one name. -/
theorem eq_singleton {slots : Slots} {name : String} {slot : Slot}
    (hnames : slots.map Prod.fst = [name]) (hfound : slots.find? name = some slot) :
    slots = [(name, slot)] := by
  obtain ⟨entry, rfl, rfl⟩ := List.map_eq_singleton_iff.mp hnames
  rw [find?_cons, if_pos rfl] at hfound
  rw [← Option.some.inj hfound]

end Slots

namespace Env

/-- Makes the counter the only variable of the current scope. -/
def count (env : Env) (name : String) (k : Int64) : Env :=
  env.modifySlots (fun _ => [(name, .counter k)]) env.current

/-- The current scope is not the global one, and its only variable is the counter. -/
structure Counting (name : String) (k : Int64) (env : Env) : Prop where
  wellFormed : env.WellFormed
  inner : env.current ≠ globalScope
  slots : env.slotsAt env.current = [(name, .counter k)]

/-- Writes keep the names of every scope. -/
theorem Writes.names {env env' : Env} (h : Writes env env') (id : ScopeId) :
    (env'.slotsAt id).map Prod.fst = (env.slotsAt id).map Prod.fst := by
  induction h with
  | refl => rfl
  | @tail mid last _ hstep ih =>
    rw [← ih]
    obtain ⟨found, -, -, -⟩ := hstep
    rename_i other name slot ty v
    rcases slotsAt_modifySlots_cases mid (Slots.setValue name v) other id with ⟨-, hslots⟩ | hslots
    · rw [hslots, Slots.map_fst_setValue]
    · rw [hslots]

theorem WellFormed.current_lt {env : Env} (hwf : env.WellFormed) : env.current < env.depth := by
  rw [hwf.depth_eq]
  exact Nat.lt_succ_self _

section count

variable {env : Env} {name : String} {k : Int64}

/-- The variables of the other scopes are as before. -/
theorem slotsAt_count_ne (name : String) (k : Int64) {id : ScopeId} (h : id ≠ env.current) :
    (env.count name k).slotsAt id = env.slotsAt id :=
  slotsAt_modifySlots_ne h

theorem slotsAt_count_self (hwf : env.WellFormed) (name : String) (k : Int64) :
    (env.count name k).slotsAt env.current = [(name, .counter k)] :=
  slotsAt_modifySlots_self hwf.current_lt

/-- An environment of the same shape with the counter in the current scope and the other scopes as
they were. -/
theorem eq_count (hwf : env.WellFormed) {env' : Env} (shape : SameShape env env')
    (hself : env'.slotsAt env.current = [(name, .counter k)])
    (hothers : ∀ id, id ≠ env.current → env'.slotsAt id = env.slotsAt id) :
    env' = env.count name k := by
  have shape' : SameShape env (env.count name k) := sameShape_modifySlots env _ _
  refine ext_of_views ?_ ?_ (fun id => ?_) fun id => ?_
  · rw [shape.depth, shape'.depth]
  · rw [shape.current, shape'.current]
  · by_cases hid : id = env.current
    · rw [hid, hself, slotsAt_count_self hwf]
    · rw [hothers id hid, slotsAt_count_ne name k hid]
  · rw [shape.parent, shape'.parent]

theorem Counting.count_eq (h : Counting name k env) : env.count name k = env :=
  (eq_count h.wellFormed (.refl env) h.slots fun _ _ => rfl).symm

theorem counting_count (hwf : env.WellFormed) (hinner : env.current ≠ globalScope) (name : String)
    (k : Int64) : Counting name k (env.count name k) := by
  have hcurrent : (env.count name k).current = env.current := current_modifySlots env _ _
  refine ⟨hwf.modifySlots _ _, ?_, ?_⟩
  · rwa [hcurrent]
  · rw [hcurrent, slotsAt_count_self hwf]

/-- The counter is overwritten. -/
theorem count_count (hwf : env.WellFormed) (name : String) (j k : Int64) :
    (env.count name j).count name k = env.count name k := by
  have shape : SameShape env (env.count name j) := sameShape_modifySlots env _ _
  have shape' : SameShape (env.count name j) ((env.count name j).count name k) :=
    sameShape_modifySlots _ _ _
  have hwf' : (env.count name j).WellFormed := shape.wellFormed hwf
  refine eq_count hwf (shape.trans shape') ?_ fun id hid => ?_
  · rw [← shape.current, slotsAt_count_self hwf']
  · rw [slotsAt_count_ne name k (by rwa [shape.current]), slotsAt_count_ne name j hid]

/-- The counter is gone when its scope has been left. -/
theorem pop_count (hwf : env.WellFormed) (hinner : env.current ≠ globalScope) (name : String)
    (k : Int64) (p : ScopeId) : (env.count name k).pop p = env.pop p := by
  unfold count
  rw [hwf.current_eq] at hinner ⊢
  exact pop_modifySlots_last (Nat.pos_of_ne_zero hinner)

theorem Counting.resolve (h : Counting name k env) : env.resolve name = some env.current := by
  unfold Env.resolve
  rw [resolveFrom_eq, h.slots]
  simp [Slots.find?_cons]

theorem Counting.lookup? (h : Counting name k env) : env.lookup? name = some (.counter k) := by
  rw [lookup?_eq_some_iff]
  refine ⟨env.current, h.resolve, ?_⟩
  rw [h.slots]
  simp [Slots.find?_cons]

theorem Counting.get (h : Counting name k env) : env.get name = .ok (.int k) := by
  unfold Env.get
  rw [h.lookup?]
  rfl

/-- Assigning the counter counts. -/
theorem Counting.assign (h : Counting name k env) (j : Int64) :
    env.assign name (.int j) = .ok (env.count name j) := by
  have hadmits : env.Admits name (.int j) := ⟨_, .int, h.lookup?, rfl, rfl, rfl⟩
  rw [assign_eq_ok_iff]
  refine ⟨hadmits, env.current, h.resolve, (eq_count h.wellFormed ?_ ?_ fun id hid => ?_).symm⟩
  · exact sameShape_modifySlots env _ _
  · rw [store, slotsAt_modifySlots_self h.wellFormed.current_lt, h.slots]
    simp [Slots.setValue, Slot.counter]
  · exact slotsAt_modifySlots_ne hid

/-- Declaring the counter in a scope that was just entered counts. -/
theorem declare_counter (hwf : env.WellFormed) (name : String) (k : Int64) :
    (env.push env.current).declare name (.counter k) =
      .ok ((env.push env.current).count name k) := by
  have hpushed : (env.push env.current).WellFormed := hwf.push hwf.current_lt
  have hempty : (env.push env.current).slotsAt (env.push env.current).current = [] := by
    rw [slotsAt_push, current_push, slotsAt_of_depth_le (Nat.le_refl _)]
  unfold declare
  rw [hempty]
  refine congrArg Except.ok (eq_count hpushed (sameShape_modifySlots _ _ _) ?_ fun id hid => ?_)
  · rw [slotsAt_modifySlots_self hpushed.current_lt, hempty]
  · exact slotsAt_modifySlots_ne hid

end count

end Env

/-! ## What actions come to -/

namespace Action

variable {ε α β : Type}

/-- Leaves the current scope behind an action. -/
def leaving (p : ScopeId) (x : Action ε α) : Action ε α :=
  fun s => (x s).mapAfter fun s' => { s' with env := s'.env.pop p }

/-- In two states, two actions come to the same. -/
def Alike (x : Nat → Action ε α) (s : State) (y : Nat → Action ε α) (t : State) : Prop :=
  ∀ r, r ≠ .spent → (ComesTo x s r ↔ ComesTo y t r)

variable {x y z : Nat → Action ε α} {s t u : State}

theorem Alike.trans (h : Alike x s y t) (h' : Alike y t z u) : Alike x s z u :=
  fun r hr => (h r hr).trans (h' r hr)

/-- Actions that agree from some number of steps on come to the same. -/
theorem alike_of_le (n : Nat) (h : ∀ m, n ≤ m → x m s = y m t) : Alike x s y t := by
  intro r _
  constructor
  · rintro ⟨k, hk⟩
    refine ⟨max n k, fun m hm => ?_⟩
    rw [← h m (by omega), hk m (by omega)]
  · rintro ⟨k, hk⟩
    refine ⟨max n k, fun m hm => ?_⟩
    rw [h m (by omega), hk m (by omega)]

/-- One step more at the start makes no difference. -/
theorem alike_succ (x : Nat → Action ε α) (s : State) : Alike x s (fun n => x (n + 1)) s := by
  intro r _
  constructor
  · rintro ⟨k, hk⟩
    exact ⟨k, fun m hm => hk (m + 1) (by omega)⟩
  · rintro ⟨k, hk⟩
    refine ⟨k + 1, fun m hm => ?_⟩
    obtain ⟨j, rfl⟩ : ∃ j, m = j + 1 := ⟨m - 1, by omega⟩
    exact hk j (by omega)

/-- What more steps keep is come to as soon as it is there. -/
theorem comesTo_iff (hx : ∀ n, (x n).Grows (x (n + 1))) {r : Result ε α} (hr : r ≠ .spent) :
    ComesTo x s r ↔ ∃ n, x n s = r := by
  constructor
  · rintro ⟨n, hn⟩
    exact ⟨n, hn n (Nat.le_refl n)⟩
  · rintro ⟨n, rfl⟩
    exact ⟨n, fun m hm => grows_of_le hx hm s hr⟩

section bind

variable {f g : Nat → α → Action ε β} {p : ScopeId} {r : Result ε β}

theorem comesTo_bind (hx : ∀ n, (x n).Grows (x (n + 1))) (hr : r ≠ .spent)
    (hfg : ∀ n a s', x n s = .done a s' → ComesTo (fun n => (f n a).leaving p) s' r →
      ComesTo (fun n => (g n a).leaving p) s' r)
    (h : ComesTo (fun n => (x n >>= f n).leaving p) s r) :
    ComesTo (fun n => (x n >>= g n).leaving p) s r := by
  obtain ⟨n, hn⟩ := h
  have hmore : ∀ m, n ≤ m → x n s ≠ .spent → x m s = x n s := fun m hm => grows_of_le hx hm s
  have hfirst := hn n (Nat.le_refl n)
  simp only [leaving, bind_apply] at hn hfirst
  cases hresult : x n s with
  | spent =>
    rw [hresult] at hfirst
    exact absurd hfirst.symm hr
  | stop e s' =>
    refine ⟨n, fun m hm => ?_⟩
    simp only [leaving, bind_apply]
    rw [hmore m hm (by simp [hresult]), ← hfirst, hresult]
  | done a s' =>
    have hrest : ComesTo (fun n => (f n a).leaving p) s' r := by
      refine ⟨n, fun m hm => ?_⟩
      have hm' := hn m hm
      rwa [hmore m hm (by simp [hresult]), hresult] at hm'
    obtain ⟨k, hk⟩ := hfg n a s' hresult hrest
    refine ⟨max n k, fun m hm => ?_⟩
    simp only [leaving, bind_apply]
    rw [hmore m (by omega) (by simp [hresult]), hresult]
    exact hk m (by omega)

/-- Behind the same action, actions that come to the same may be exchanged. -/
theorem alike_bind (hx : ∀ n, (x n).Grows (x (n + 1)))
    (hfg : ∀ n a s', x n s = .done a s' →
      Alike (fun n => (f n a).leaving p) s' (fun n => (g n a).leaving p) s') :
    Alike (fun n => (x n >>= f n).leaving p) s (fun n => (x n >>= g n).leaving p) s := by
  intro r hr
  constructor
  · exact comesTo_bind hx hr fun n a s' hdone => (hfg n a s' hdone r hr).mp
  · exact comesTo_bind hx hr fun n a s' hdone => (hfg n a s' hdone r hr).mpr

end bind

end Action

/-! ## The header of the loop -/

/-- The header of a counting loop, as it is written:
`MUGNA NUMERO i = first, i < last, i++`. -/
structure CountingHeader where
  name : String
  first : Int64
  last : Int64
  declared : Token
  tested : Token
  stepped : Token
  less : Token
  plus : Token
  firstLine : Nat
  lastLine : Nat
  declared_eq : declared.lexeme = name
  tested_eq : tested.lexeme = name
  stepped_eq : stepped.lexeme = name
  less_eq : less.kind = .mark .less

namespace CountingHeader

/-- The declaration of the counter. -/
def init (h : CountingHeader) : Stmt :=
  .declare h.declared .int (some (.literal (.int h.first) h.firstLine)) true

/-- The comparison of the counter with its bound. -/
def cond (h : CountingHeader) : Expr :=
  .binary (.var h.tested) h.less (.literal (.int h.last) h.lastLine)

/-- The increment of the counter. -/
def step (h : CountingHeader) : Expr :=
  Grammar.counting h.stepped .plus "+" h.plus

/-- The loop with this header. -/
def loop (h : CountingHeader) (body : List Stmt) : Stmt :=
  .forLoop h.init h.cond h.step body

end CountingHeader

/-- The state in which the counter is the only variable of the current scope. -/
def State.count (s : State) (name : String) (k : Int64) : State :=
  { s with env := s.env.count name k }

/-- Makes the counter the only variable of the current scope. -/
def Action.bindCounter {ε : Type} (name : String) (k : Int64) : Action ε Unit :=
  fun s => .done () (s.count name k)

namespace Eval

open Sugod.Action

/-- Runs a body for each of some numbers, in a scope of its own, with the counter bound to the
number. -/
def rounds (n : Nat) (name : String) (body : List Stmt) (ks : List Int64) : Action Interrupt Unit :=
  forM ks fun k => do
    bindCounter name k
    nested (stmts n body)

section Header

variable (h : CountingHeader) {t : State} {k : Int64}

theorem expr_var_counting (ht : t.env.Counting h.name k) {name : Token}
    (hname : name.lexeme = h.name) (n : Nat) :
    expr (n + 1) (.var name) t = .done (.int k) t := by
  rw [expr]
  unfold getVar
  rw [hname, ht.get]
  rfl

theorem expr_literal (v : Value) (line n : Nat) (t : State) :
    expr (n + 1) (.literal v line) t = .done v t := by
  rw [expr]
  rfl

/-- The condition compares, and changes nothing. -/
theorem cond_counting (ht : t.env.Counting h.name k) (n : Nat) :
    cond (n + 3) h.cond t = .done (k < h.last) t := by
  have hless : Operator.binary h.less (.int k) (.int h.last) = .ok (.bool (k < h.last)) := by
    unfold Operator.binary
    rw [h.less_eq]
    rfl
  have hcompare : expr (n + 2) h.cond t = .done (.bool (k < h.last)) t := by
    rw [CountingHeader.cond, expr, bind_of_done (expr_var_counting h ht h.tested_eq n),
      bind_of_done (expr_literal _ _ n t), hless]
    rfl
  rw [cond, bind_of_done hcompare]
  rfl

/-- The increment counts, and changes nothing else. -/
theorem increment_counting (ht : t.env.Counting h.name k) (n : Nat) :
    increment (n + 4) (some h.step) t = .done () (t.count h.name (k + 1)) := by
  have hassign : assign h.stepped (.int (k + 1)) t = .done () (t.count h.name (k + 1)) := by
    unfold assign onEnv
    simp only [h.stepped_eq, ht.assign]
    rfl
  have hsum : expr (n + 2) (.binary (.var h.stepped) ⟨.mark .plus, "+", h.plus.line⟩
      (.literal (.int 1) h.stepped.line)) t = .done (.int (k + 1)) t := by
    rw [expr, bind_of_done (expr_var_counting h ht h.stepped_eq n),
      bind_of_done (expr_literal _ _ n t)]
    rfl
  have hcount : expr (n + 3) h.step t = .done (.int (k + 1)) (t.count h.name (k + 1)) := by
    rw [CountingHeader.step, Grammar.counting, expr, bind_of_done hsum, bind_of_done hassign]
    rfl
  rw [increment]
  refine asStmt_of_done ?_
  rw [bind_of_done hcount]
  rfl

/-- The declaration puts the counter into the scope of the loop. -/
theorem init_counting {s : State} (hwf : s.env.WellFormed) (n : Nat) :
    stmt (n + 2) h.init s.nested = .done () (s.nested.count h.name h.first) := by
  have hdeclare : declare h.declared (.counter h.first) s.nested =
      .done () (s.nested.count h.name h.first) := by
    unfold declare onEnv State.nested
    simp only [h.declared_eq, Env.declare_counter hwf]
    rfl
  rw [CountingHeader.init, stmt]
  refine asStmt_of_done ?_
  rw [bind_of_done (expr_literal _ _ n _)]
  exact hdeclare

end Header

/-! ## The rounds -/

section Rounds

variable {name : String} {body : List Stmt}

theorem rounds_cons (n : Nat) (name : String) (body : List Stmt) (k : Int64) (ks : List Int64) :
    rounds n name body (k :: ks) = (do
      bindCounter name k
      nested (stmts n body)
      rounds n name body ks) := by
  unfold rounds
  rw [List.forM_cons]
  simp only [bind_assoc]

theorem rounds_cons_apply (n : Nat) (name : String) (body : List Stmt) (k : Int64) (ks : List Int64)
    (t : State) :
    rounds n name body (k :: ks) t = (do
      nested (stmts n body)
      rounds n name body ks : Action Interrupt Unit) (t.count name k) := by
  rw [rounds_cons]
  rfl

theorem rounds_grows (n : Nat) (name : String) (body : List Stmt) (ks : List Int64) :
    (rounds n name body ks).Grows (rounds (n + 1) name body ks) := by
  induction ks with
  | nil => exact .refl _
  | cons k ks ih =>
    rw [rounds_cons, rounds_cons]
    refine (Grows.refl _).bind fun _ => ?_
    exact (stmts_mono (Nat.le_succ n) body).nested.bind fun _ => ih

/-- **The body keeps the counter**, if it does not assign it. -/
theorem counting_of_block (hbody : stmtsAssign name body = false) {n : Nat} {t t' : State}
    {k : Int64} (ht : t.env.Counting name k) (h : (nested (stmts n body) t).after? = some t') :
    t'.env.Counting name k := by
  have haffects := (stmts_affects n body).nested
  have hwrites : Env.Writes t.env t'.env := (haffects t t' h).1
  have hcurrent : t'.env.current = t.env.current :=
    (Env.Changes.sameShape hwrites.changes).current
  have hnames : (t'.env.slotsAt t.env.current).map Prod.fst = [name] := by
    rw [hwrites.names, ht.slots]
    rfl
  have hfound : (t'.env.slotsAt t.env.current).find? name = some (.counter k) := by
    refine (stmts_spares ht.inner hbody n).nested (stmts_affects n body) t t' _ ?_ h
    rw [ht.slots]
    simp [Slots.find?_cons]
  refine ⟨haffects.changes.wellFormed ht.wellFormed h, ?_, ?_⟩
  · rw [hcurrent]
    exact ht.inner
  · rw [hcurrent]
    exact Slots.eq_singleton hnames hfound

/-- Each round binds the counter anew, so its value before the rounds does not matter. -/
theorem rounds_count {t : State} (hwf : t.env.WellFormed) (hinner : t.env.current ≠ globalScope)
    (n : Nat) (k : Int64) (ks : List Int64) (p : ScopeId) :
    (rounds n name body ks).leaving p (t.count name k) = (rounds n name body ks).leaving p t := by
  cases ks with
  | nil =>
    have hpop : (t.env.count name k).pop p = t.env.pop p := Env.pop_count hwf hinner name k p
    show Result.done () { t with env := (t.env.count name k).pop p } = _
    rw [hpop]
    rfl
  | cons j ks =>
    have hcount : (t.count name k).count name j = t.count name j := by
      unfold State.count
      rw [Env.count_count hwf]
    unfold leaving
    rw [rounds_cons_apply, rounds_cons_apply, hcount]

variable (h : CountingHeader)

/-- With the bound reached, the loop is done. -/
theorem loop_of_le {t : State} {k : Int64} (ht : t.env.Counting h.name k) (hk : h.last ≤ k)
    (n : Nat) : loop (n + 4) h.cond body (some h.step) t = .done () t := by
  have hfalse : decide (k < h.last) = false := decide_eq_false (Int64.not_lt.mpr hk)
  rw [loop, bind_of_done (asStmt_of_done (cond_counting h ht n)), hfalse]
  rfl

/-- Below the bound, the loop runs its body, counts and goes on. -/
theorem loop_of_lt {t : State} {k : Int64} (ht : t.env.Counting h.name k) (hk : k < h.last)
    (n : Nat) :
    loop (n + 4) h.cond body (some h.step) t = (do
      nested (stmts (n + 3) body)
      increment (n + 3) (some h.step)
      loop (n + 3) h.cond body (some h.step) : Action Interrupt Unit) t := by
  rw [loop, bind_of_done (asStmt_of_done (cond_counting h ht n)), decide_eq_true hk]
  rfl

/-- Below the bound, the loop comes to its body, the counting and the loop again. -/
theorem loop_alike_round {t : State} {k : Int64} (ht : t.env.Counting h.name k) (hk : k < h.last)
    (p : ScopeId) :
    Alike (fun n => (loop n h.cond body (some h.step)).leaving p) t
      (fun n => (do
        nested (stmts n body)
        increment n (some h.step)
        loop n h.cond body (some h.step)).leaving p) t := by
  refine (alike_succ _ t).trans (alike_of_le 3 fun m hm => ?_)
  obtain ⟨n, rfl⟩ : ∃ n, m = n + 3 := ⟨m - 3, by omega⟩
  simp only [leaving, loop_of_lt h ht hk]

/-- The counting gives the counter the next number. -/
theorem counted_alike_loop {t : State} {k : Int64} (ht : t.env.Counting h.name k) (p : ScopeId) :
    Alike
      (fun n => (do
        increment n (some h.step)
        loop n h.cond body (some h.step)).leaving p) t
      (fun n => (loop n h.cond body (some h.step)).leaving p) (t.count h.name (k + 1)) := by
  refine alike_of_le 4 fun m hm => ?_
  obtain ⟨n, rfl⟩ : ∃ n, m = n + 4 := ⟨m - 4, by omega⟩
  simp only [leaving, bind_of_done (increment_counting h ht n)]

/-- Where the counter has the first number already, the rounds begin with the body. -/
theorem rounds_of_counting {t : State} {k : Int64} (ht : t.env.Counting name k) (n : Nat)
    (ks : List Int64) (p : ScopeId) :
    (do
      nested (stmts n body)
      rounds n name body ks).leaving p t = (rounds n name body (k :: ks)).leaving p t := by
  have hcount : t.count name k = t := by
    unfold State.count
    rw [ht.count_eq]
  unfold leaving
  rw [rounds_cons_apply, hcount]

/-- **A counting loop comes to what the rounds for its numbers come to**, seen from outside of its
scope. -/
theorem loop_alike_rounds (hbody : stmtsAssign h.name body = false) (p : ScopeId)
    (ks : List Int64) :
    ∀ (k : Int64) (t : State), t.env.Counting h.name k → counts k h.last = ks →
      Alike (fun n => (loop n h.cond body (some h.step)).leaving p) t
        (fun n => (rounds n h.name body ks).leaving p) t := by
  induction ks with
  | nil =>
    intro k t ht hks
    have hk : h.last ≤ k := by
      refine Int64.not_lt.mp fun hlt => ?_
      rw [counts_of_lt hlt] at hks
      cases hks
    refine alike_of_le 4 fun m hm => ?_
    obtain ⟨n, rfl⟩ : ∃ n, m = n + 4 := ⟨m - 4, by omega⟩
    simp only [leaving, loop_of_le h ht hk]
    rfl
  | cons j ks ih =>
    intro k t ht hks
    have hk : k < h.last := by
      refine Int64.not_le.mp fun hle => ?_
      rw [counts_of_le hle] at hks
      cases hks
    rw [counts_of_lt hk] at hks
    obtain ⟨rfl, htail⟩ := List.cons.inj hks
    -- Both sides run the body first.
    refine (loop_alike_round h ht hk p).trans (Alike.trans ?_ (alike_of_le 0 fun m _ =>
      rounds_of_counting ht m ks p))
    refine alike_bind (fun n => (stmts_mono (Nat.le_succ n) body).nested) fun n _ t' hdone => ?_
    -- The body has kept the counter, so the loop counts and goes on with the next number.
    have ht' : t'.env.Counting h.name k := counting_of_block hbody ht (by rw [hdone]; rfl)
    have hnext : (t'.count h.name (k + 1)).env.Counting h.name (k + 1) :=
      Env.counting_count ht'.wellFormed ht'.inner h.name (k + 1)
    have hrest : Alike (fun n => (rounds n h.name body ks).leaving p) (t'.count h.name (k + 1))
        (fun n => (rounds n h.name body ks).leaving p) t' :=
      alike_of_le 0 fun m _ => rounds_count ht'.wellFormed ht'.inner m (k + 1) ks p
    exact (counted_alike_loop h ht' p).trans ((ih (k + 1) _ hnext htail).trans hrest)

end Rounds

/-- **The whole loop comes to what the rounds come to**, in a scope around them. -/
theorem loop_alike (h : CountingHeader) {body : List Stmt} (hbody : stmtsAssign h.name body = false)
    {s : State} (hwf : s.env.WellFormed) :
    Alike (fun n => stmt n (h.loop body)) s
      (fun n => nested (rounds n h.name body (counts h.first h.last))) s := by
  have hpushed : s.nested.env.WellFormed := hwf.push hwf.current_lt
  have hinner : s.nested.env.current ≠ globalScope := Nat.succ_ne_zero _
  have hstart : (s.nested.count h.name h.first).env.Counting h.name h.first :=
    Env.counting_count hpushed hinner h.name h.first
  have hloop : Alike (fun n => stmt n (h.loop body)) s
      (fun n => (loop n h.cond body (some h.step)).leaving s.env.current)
      (s.nested.count h.name h.first) := by
    refine (alike_succ _ s).trans (alike_of_le 2 fun m hm => ?_)
    obtain ⟨n, rfl⟩ : ∃ n, m = n + 2 := ⟨m - 2, by omega⟩
    simp only [CountingHeader.loop, stmt]
    show leaving s.env.current _ s.nested = _
    unfold leaving
    rw [bind_of_done (init_counting h hwf n)]
  have hrounds : Alike
      (fun n => (rounds n h.name body (counts h.first h.last)).leaving s.env.current)
      (s.nested.count h.name h.first)
      (fun n => nested (rounds n h.name body (counts h.first h.last))) s :=
    alike_of_le 0 fun m _ => rounds_count hpushed hinner m h.first _ _
  exact hloop.trans
    ((loop_alike_rounds h hbody s.env.current _ h.first _ hstart rfl).trans hrounds)

end Eval

/-- **A counting loop counts.** Let its body neither assign the counter nor accept input for it.
From every well-formed state, the loop ends exactly if the following does, and then in the same way
and in the same state: one scope is entered; for each number from the first one up to the bound, in
order, the body runs in a scope of its own with the counter bound to the number; and the scope is
left. The numbers never wrap around. The declaration, the condition and the increment never fail,
and the variables of other scopes than that of the loop are not changed by them. -/
theorem counting_loop_counts (h : CountingHeader) (body : List Stmt)
    (hbody : stmtsAssign h.name body = false) (s : State) (hwf : s.env.WellFormed) :
    (∀ r : Result Interrupt Unit, r ≠ .spent →
      ((∃ n, Eval.stmt n (h.loop body) s = r) ↔
        ∃ n, Action.nested (Eval.rounds n h.name body (counts h.first h.last)) s = r)) ∧
    (counts h.first h.last).map Int64.toInt =
      (List.range (h.last.toInt - h.first.toInt).toNat).map (fun j : Nat => h.first.toInt + j) ∧
    (∀ n, Eval.stmt (n + 2) h.init s.nested = .done () (s.nested.count h.name h.first)) ∧
    (∀ (t : State) (k : Int64), t.env.Counting h.name k →
      (∀ n, Eval.cond (n + 3) h.cond t = .done (k < h.last) t) ∧
      (∀ n, Eval.increment (n + 4) (some h.step) t = .done () (t.count h.name (k + 1))) ∧
      (k < h.last → (k + 1).toInt = k.toInt + 1)) ∧
    ∀ (t : State) (k : Int64) (id : ScopeId), id ≠ t.env.current →
      (t.count h.name k).env.slotsAt id = t.env.slotsAt id := by
  refine ⟨fun r hr => ?_, map_toInt_counts _ _, Eval.init_counting h hwf, fun t k ht => ?_, ?_⟩
  · have hstmt : ∀ n, (Eval.stmt n (h.loop body)).Grows (Eval.stmt (n + 1) (h.loop body)) :=
      fun n => Eval.stmt_mono (Nat.le_succ n) _
    have hrounds := fun n => (Eval.rounds_grows n h.name body (counts h.first h.last)).nested
    rw [← Action.comesTo_iff hstmt hr, ← Action.comesTo_iff hrounds hr]
    exact Eval.loop_alike h hbody hwf r hr
  · exact ⟨Eval.cond_counting h ht, Eval.increment_counting h ht, toInt_add_one_of_lt⟩
  · exact fun t k id hid => Env.slotsAt_count_ne h.name k hid

/-! ## Counting up to the largest number -/

/-- `MUGNA NUMERO i = 9223372036854775805, i < 9223372036854775807, i++` -/
def upToLargest : CountingHeader where
  name := "i"
  first := 9223372036854775805
  last := 9223372036854775807
  declared := nameToken "i"
  tested := nameToken "i"
  stepped := nameToken "i"
  less := markToken .less
  plus := markToken .plus
  firstLine := 1
  lastLine := 1
  declared_eq := rfl
  tested_eq := rfl
  stepped_eq := rfl
  less_eq := rfl

theorem wellFormed_summing (x : Int64) : (summing x).env.WellFormed :=
  ⟨rfl, fun i scope h => by simp [summing] at h⟩

theorem counting_summing (x k : Int64) : ((summing x).nested.count "i" k).env.Counting "i" k :=
  Env.counting_count ((wellFormed_summing x).push (wellFormed_summing x).current_lt)
    (Nat.succ_ne_zero 0) "i" k

/-- One round of it adds the counter to the sum, and then the 1 of another `i` that hides it. -/
theorem Eval.loop_upToLargest (n : Nat) {x k : Int64} (hk : k < upToLargest.last) :
    Eval.loop (n + 9) upToLargest.cond [sumUp, countFrom, sumUp] (some upToLargest.step)
        ((summing x).nested.count "i" k) =
      Eval.loop (n + 8) upToLargest.cond [sumUp, countFrom, sumUp] (some upToLargest.step)
        ((summing (x + k + 1)).nested.count "i" (k + 1)) := by
  have hbody : Action.nested (Eval.stmts (n + 8) [sumUp, countFrom, sumUp])
      ((summing x).nested.count "i" k) =
      .done () ((summing (x + k + 1)).nested.count "i" k) := by with_unfolding_all rfl
  rw [Eval.loop_of_lt upToLargest (counting_summing x k) hk (n + 5), Action.bind_of_done hbody,
    Action.bind_of_done (Eval.increment_counting upToLargest (counting_summing _ k) (n + 4))]
  rfl

/-- In each of two rounds the counter is added to the sum, and then the 1 of another `i` that hides
it. The sum wraps around to 1; the counter does not. -/
theorem counting_loop_counts_largest :
    stmtsAssign "i" [sumUp, countFrom, sumUp] = false ∧ (summing 4).env.WellFormed ∧
    Eval.stmt 12 (upToLargest.loop [sumUp, countFrom, sumUp]) (summing 4) = .done () (summing 1) ∧
    ∃ n, Action.nested (Eval.rounds n "i" [sumUp, countFrom, sumUp]
      [9223372036854775805, 9223372036854775806]) (summing 4) = .done () (summing 1) := by
  have hbody : stmtsAssign "i" [sumUp, countFrom, sumUp] = false := by decide
  have hwf : (summing 4).env.WellFormed := wellFormed_summing 4
  have hrounds : Eval.loop 11 upToLargest.cond [sumUp, countFrom, sumUp] (some upToLargest.step)
      ((summing 4).nested.count "i" upToLargest.first) =
      .done () ((summing 1).nested.count "i" upToLargest.last) := by
    rw [Eval.loop_upToLargest 2 (by decide), Eval.loop_upToLargest 1 (by decide)]
    exact Eval.loop_of_le upToLargest (counting_summing 1 _) (Int64.le_refl _) 5
  have hloop : Eval.stmt 12 (upToLargest.loop [sumUp, countFrom, sumUp]) (summing 4) =
      .done () (summing 1) := by
    rw [CountingHeader.loop, Eval.stmt]
    show Action.leaving 0 _ (summing 4).nested = _
    unfold Action.leaving
    rw [Action.bind_of_done (Eval.init_counting upToLargest hwf 9)]
    exact congrArg (Result.mapAfter _) hrounds
  have hended : (.done () (summing 1) : Result Interrupt Unit) ≠ .spent := by
    intro h
    cases h
  have hcounts := (counting_loop_counts upToLargest _ hbody (summing 4) hwf).1 _ hended
  exact ⟨hbody, hwf, hloop, hcounts.mp ⟨12, hloop⟩⟩

end Sugod
