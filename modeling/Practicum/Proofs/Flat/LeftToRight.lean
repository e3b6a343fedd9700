import Practicum.Flat.OfTree
import Practicum.Proofs.Choco.Functions
import Practicum.Proofs.Flat.Evaluation

/-!
# Left-to-right evaluation

An expression is evaluated from the left to the right, and only as far as it must be; an assignment
evaluates its value first and then, target by target, the target and the store into it. The
operations of the flat level do the same, whatever calls and operators do to the store.
-/

namespace Practicum.Flat

open Choco IR List Meaning Node

variable {code : FlatCode} {operands : List Val} {type : Ty} {n₁ m : Nat} {op : String}

variable {V L S F α β : Type} {n n' : Nat}

/-! ## What a tree does -/

/-- What an operand stands for: a value, or the location of a variable or an element. -/
inductive Datum (V L : Type) where
  | value (v : V)
  | location (l : L)

/-- A store, and the calls so far with their arguments. -/
structure Progress (S V : Type) where
  store : S
  calls : List (String × List V)

abbrev Steps (V S F α : Type) := ExceptT F (StateT (Progress S V) Option) α

/-- What happens to a store, with a result or a failure. -/
abbrev Deed (S F α : Type) := S → Except F α × S

/-- What single steps do with values, locations, stores and failures. All of them may change the
store in any way. -/
structure Language (V L S F : Type) where
  truth : V → Bool
  literal : Literal → Deed S F V
  unary : String → V → Deed S F V
  binary : String → V → V → Deed S F V
  list : List V → Deed S F V
  element : V → V → Deed S F L
  call : String → List V → Deed S F V
  load : L → Deed S F V
  store : L → V → Deed S F Unit

def Deed.steps (d : Deed S F α) : Steps V S F α :=
  fun p => some ((d p.store).1, { p with store := (d p.store).2 })

def Steps.meaningless : Steps V S F α :=
  fun _ => none

namespace Language

variable (A : Language V L S F) (place : String → Option L)

def called (func : String) (args : List V) : Steps V S F V := fun p =>
  some ((A.call func args p.store).1,
    { store := (A.call func args p.store).2, calls := p.calls ++ [(func, args)] })

def variableAt (x : String) : Steps V S F L :=
  match place x with
  | some l => return l
  | none => .meaningless

mutual

def valueOf : Node → Steps V S F V
  | .literal v _ => (A.literal v).steps
  | .name x _ => do (A.load (← variableAt place x)).steps
  | .unary op a _ => do
    let v ← valueAt a
    (A.unary op v).steps
  | .binary op a b _ => do
    let v ← valueAt a
    if op = "and" && !A.truth v || op = "or" && A.truth v then return v
    else
      let w ← valueAt b
      if op = "and" || op = "or" then return w else (A.binary op v w).steps
  | .call func args _ => do
    let vs ← valuesOf args
    A.called func vs
  | .ifExpr c a b _ => do
    let v ← valueAt c
    if A.truth v then valueAt a else valueAt b
  | .listExpr elems _ => do
    let vs ← valuesOf elems
    (A.list vs).steps
  | .index a i _ => do
    let v ← valueAt a
    let w ← valueAt i
    let l ← (A.element v w).steps
    (A.load l).steps
  | _ => .meaningless

def valueAt : List Node → Steps V S F V
  | [] => .meaningless
  | n :: _ => valueOf n

def valuesOf : List Node → Steps V S F (List V)
  | [] => return []
  | n :: ns => do
    let v ← valueOf n
    let vs ← valuesOf ns
    return v :: vs

end

def locationAt : List Node → Steps V S F L
  | .name x _ :: _ => variableAt place x
  | .index a i _ :: _ => do
    let v ← A.valueAt place a
    let w ← A.valueAt place i
    (A.element v w).steps
  | _ => .meaningless

mutual

/-- The value and the targets, from the left, of a node that may be an assignment. -/
def sides : Node → Steps V S F V × List (Steps V S F L)
  | .assign t v => ((sidesAt v).1, A.locationAt place t :: (sidesAt v).2)
  | n => (A.valueOf place n, [])

def sidesAt : List Node → Steps V S F V × List (Steps V S F L)
  | [] => (.meaningless, [])
  | n :: _ => sides n

end

def storeAll (v : V) : List (Steps V S F L) → Steps V S F Unit
  | [] => return ()
  | t :: ts => do
    let l ← t
    (A.store l v).steps
    storeAll v ts

/-- An assignment: its value, once, and then the targets. -/
def assignment (n : Node) : Steps V S F Unit := do
  let v ← (A.sides place n).1
  A.storeAll v (A.sides place n).2

end Language

/-! ## What operations do -/

def Datum.value? : Datum V L → Option V
  | .value v => some v
  | .location _ => none

namespace Language

variable (A : Language V L S F)

/-- An operation of the flat level without control flow. -/
def operate : FlatCode → List (Datum V L) → Steps V S F (Option (Datum V L))
  | .literal v, [] => do return some (.value (← (A.literal v).steps))
  | .unary op, [.value v] => do return some (.value (← (A.unary op v).steps))
  | .binary op, [.value v, .value w] => do return some (.value (← (A.binary op v w).steps))
  | .list, args =>
    match args.mapM Datum.value? with
    | some vs => do return some (.value (← (A.list vs).steps))
    | none => .meaningless
  | .call func, args =>
    match args.mapM Datum.value? with
    | some vs => do return some (.value (← A.called func vs))
    | none => .meaningless
  | .getAddress, [.value v, .value w] => do return some (.location (← (A.element v w).steps))
  | .indexString, [.value v, .value w] => do return some (.location (← (A.element v w).steps))
  | .load, [.location l] => do return some (.value (← (A.load l).steps))
  | .store, [.location l, .value v] => do
    (A.store l v).steps
    return none
  | _, _ => .meaningless

/-- The meaning of the operations of the flat level. -/
def meaning : Meaning (Datum V L) (Progress S V) F where
  truth? d := d.value?.map A.truth
  operate code _ args _ p :=
    match A.operate code args p with
    | some (.ok d, p) => .value d p
    | some (.error why, p) => .failed why p
    | none => .stuck

end Language

/-- Operations end as steps do: behind them with what the steps give, or by their failure. -/
def Agrees (o : Outcome (Datum V L) (Progress S V) F) (r : Option (Except F α × Progress S V))
    (Q : α → Env (Datum V L) → Prop) : Prop :=
  match r with
  | some (.ok a, p) => ∃ env, o = .ended .behind env p ∧ Q a env
  | some (.error why, p) => ∃ env, o = .ended (.failed why) env p
  | none => False

/-- Two environments agree on the values below a number. -/
def Same (n : Nat) (env env' : Env (Datum V L)) : Prop :=
  ∀ i < n, env' i = env i

theorem Same.trans {env env' env'' : Env (Datum V L)} (h : Same n env env')
    (h' : Same n' env' env'') (hle : n ≤ n') : Same n env env'' :=
  fun i hi => (h' i (Nat.lt_of_lt_of_le hi hle)).trans (h i hi)

theorem Same.set (n : Nat) (env : Env (Datum V L)) (d : Datum V L) : Same n env (env.set n d) :=
  fun _ hi => Env.set_of_ne (Nat.ne_of_lt hi)

theorem bind_apply (x : Steps V S F α) (f : α → Steps V S F β) (p : Progress S V) :
    (x >>= f) p = (x p).bind fun r =>
      match r.1 with
      | .ok a => f a r.2
      | .error why => some (.error why, r.2) := by
  change (x p).bind _ = _
  congr 1
  funext r
  obtain ⟨a | why, q⟩ := r <;> rfl

variable {f : α → Steps V S F β} {p : Progress S V} {R : β → Env (Datum V L) → Prop}

section Agreement
variable {o : Outcome (Datum V L) (Progress S V) F} {x : Steps V S F α}
  {Q : α → Env (Datum V L) → Prop}
  {next : Env (Datum V L) → Progress S V → Outcome (Datum V L) (Progress S V) F}

theorem Agrees.bind (hx : Agrees o (x p) Q)
    (hf : ∀ a env p', Q a env → Agrees (next env p') (f a p') R) :
    Agrees (o.andThen next) ((x >>= f) p) R := by
  rw [bind_apply]
  match hxp : x p with
  | none =>
    rw [hxp] at hx
    exact hx.elim
  | some (.error why, p') =>
    rw [hxp] at hx
    obtain ⟨env, rfl⟩ := hx
    exact ⟨env, rfl⟩
  | some (.ok a, p') =>
    rw [hxp] at hx
    obtain ⟨env, rfl, ha⟩ := hx
    exact hf a env p' ha

theorem Outcome.andThen_behind (o : Outcome V S F) : o.andThen (.ended .behind) = o := by
  cases o with
  | stuck => rfl
  | ended how _ s => cases how <;> rfl

theorem Agrees.imp {Q' : α → Env (Datum V L) → Prop} (hx : Agrees o (x p) Q)
    (hQ : ∀ a env, Q a env → Q' a env) : Agrees o (x p) Q' := by
  have h : Agrees (o.andThen (.ended .behind)) ((x >>= pure) p) Q' :=
    hx.bind fun a env _ ha => ⟨env, rfl, hQ a env ha⟩
  rwa [Outcome.andThen_behind, bind_pure] at h

theorem Outcome.andThen_assoc (o : Outcome V S F) (f g : Env V → S → Outcome V S F) :
    (o.andThen f).andThen g = o.andThen fun env s => (f env s).andThen g := by
  cases o with
  | stuck => rfl
  | ended how env s => cases how <;> rfl

theorem Meaning.evalOps_append (M : Meaning V S F) (k : Nat) (xs ys : List Op) (env : Env V)
    (s : S) : M.evalOps k (xs ++ ys) env s = (M.evalOps k xs env s).andThen (M.evalOps k ys) := by
  induction xs generalizing env s with
  | nil => rfl
  | cons o xs ih =>
    rw [cons_append, evalOps, evalOps, Outcome.andThen_assoc]
    exact congrArg _ (funext fun env => funext fun s => ih env s)

end Agreement

variable {ops : List Op}

section Doing
variable {A : Language V L S F} {n₀ : Nat} {env₀ : Env (Datum V L)} {H : Env (Datum V L) → Prop}
  {ops' : List Op} {y : Steps V S F α} {G : α → Env (Datum V L) → Prop}

variable (A n₀ env₀) in
/-- Where a condition holds, and the values below `n₀` stand for what they did, operations do what
steps do and define no value below `n`. -/
def Does (H : Env (Datum V L) → Prop) (n : Nat) (ops : List Op) (y : Steps V S F α)
    (G : α → Env (Datum V L) → Prop) : Prop :=
  ∀ k env p, Same n₀ env₀ env → H env →
    Agrees (A.meaning.evalOps k ops env p) (y p) fun a env' => G a env' ∧ Same n env env'

theorem Does.append (hn : n₀ ≤ n) (hle : n ≤ n') (h : Does A n₀ env₀ H n ops y G)
    (h' : ∀ a, Does A n₀ env₀ (G a) n' ops' (f a) R) :
    Does A n₀ env₀ H n (ops ++ ops') (y >>= f) R := by
  intro k env p hsame hH
  rw [evalOps_append]
  refine (h k env p hsame hH).bind fun a env' p' ⟨ha, hframe⟩ => ?_
  refine (h' a k env' p' (hsame.trans hframe hn) ha).imp fun b env'' ⟨hb, hframe'⟩ => ?_
  exact ⟨hb, hframe.trans hframe' hle⟩

theorem Does.frame {K : Env (Datum V L) → Prop} (h : Does A n₀ env₀ (fun _ => True) n ops y G)
    (hK : ∀ env env', Same n env env' → K env → K env') :
    Does A n₀ env₀ K n ops y fun a env => G a env ∧ K env := by
  intro k env p hsame hkept
  refine (h k env p hsame trivial).imp fun a env' ⟨ha, hframe⟩ => ?_
  exact ⟨⟨ha, hK env env' hframe hkept⟩, hframe⟩

theorem Does.mono (hle : n ≤ n') (h : Does A n₀ env₀ H n' ops y G) : Does A n₀ env₀ H n ops y G :=
  fun k env p hsame hH => (h k env p hsame hH).imp fun _ _ ⟨ha, hframe⟩ =>
    ⟨ha, fun i hi => hframe i (Nat.lt_of_lt_of_le hi hle)⟩

theorem Does.nil {a : α} (h : ∀ env, H env → G a env) : Does A n₀ env₀ H n [] (pure a) G :=
  fun _ env _ _ hH => ⟨env, rfl, h env hH, fun _ _ => rfl⟩

theorem Does.single {o : Op}
    (h : ∀ k env p, Same n₀ env₀ env → H env → Agrees (A.meaning.evalOp k o env p) (y p)
      fun a env' => G a env' ∧ Same n env env') : Does A n₀ env₀ H n [o] y G := by
  intro k env p hsame hH
  change Agrees ((A.meaning.evalOp k o env p).andThen (.ended .behind)) _ _
  rw [Outcome.andThen_behind]
  exact h k env p hsame hH

theorem agrees_straight {id : Nat} {args : List (Datum V L)} {wrap : α → Datum V L}
    {env : Env (Datum V L)} {p : Progress S V}
    (hargs : operands.mapM (fun v => env v.id) = some args)
    (hop : A.operate code args = do return some (wrap (← y))) (hy : (y p).isSome = true) :
    Agrees (A.meaning.straight code id operands [⟨n, type⟩] env p) (y p)
      fun a env' => env' n = some (wrap a) ∧ Same n env env' := by
  rw [straight, hargs]
  simp only [Language.meaning, hop]
  rw [bind_apply]
  match hyp : y p with
  | none =>
    rw [hyp] at hy
    cases hy
  | some (.error why, p') => exact ⟨env, rfl⟩
  | some (.ok a, p') => exact ⟨_, rfl, Env.set_self, .set n env _⟩

end Doing

/-! ## Expressions -/

section Rendering
variable (A : Language V L S F) (n₀ : Nat) (env₀ : Env (Datum V L))

def IsPlain : Ty → Prop
  | .memory _ => False
  | .list elem => IsPlain elem
  | _ => True

def IsPlainLocation (t : Ty) : Prop :=
  ∃ content, t = .memory content ∧ IsPlain content

/-- The operations of a computation do what steps do, and its value is what they give. -/
def Gives (wrap : α → Datum V L) (n : Nat) (c : Computed) (y : Steps V S F α) : Prop :=
  Does A n₀ env₀ (fun _ => True) n c.ops y fun a env => env c.value.id = some (wrap a)

/-- A computation with the numbers from `n` up to `n'` does what steps do. -/
structure Rendered (T : Ty → Prop) (wrap : α → Datum V L) (n n' : Nat) (c : Computed)
    (y : Steps V S F α) : Prop where
  le : n ≤ n'
  below : c.value.id < n'
  type : T c.value.type
  gives : Gives A n₀ env₀ wrap n c y

/-- Whatever computation is made, it does what steps do. -/
def Renders (T : Ty → Prop) (wrap : α → Datum V L) (x : Flatten Computed) (y : Steps V S F α) :
    Prop :=
  ∀ n c n', n₀ ≤ n → x.run n = .ok (c, n') → Rendered A n₀ env₀ T wrap n n' c y

abbrev RendersValue (x : Flatten Computed) (y : Steps V S F V) : Prop :=
  Renders A n₀ env₀ IsPlain Datum.value x y

abbrev RendersLocation (x : Flatten Computed) (y : Steps V S F L) : Prop :=
  Renders A n₀ env₀ IsPlainLocation Datum.location x y

variable {A n₀ env₀} {G : β → Env (Datum V L) → Prop} {g : β → Steps V S F α} {regions : List Block}
  {z : Steps V S F β}
variable {c : Computed} {env : Env (Datum V L)} {ns : List Node} {k : Nat} {T : Ty → Prop}
  {wrap : α → Datum V L}

theorem renders_followedBy (hn : n₀ ≤ n) (hle : n ≤ n₁) (hT : T type)
    (hops : Does A n₀ env₀ (fun _ => True) n ops z G)
    (hlast : ∀ b k env p, Same n₀ env₀ env → G b env →
      Agrees (A.meaning.evalOp k (.mk (n₁ + 1) (.flat code) operands [⟨n₁, type⟩] regions) env p)
        (g b p) fun a env' => env' n₁ = some (wrap a) ∧ Same n env env')
    (h : (do return .followedBy ops (← compute code operands type regions) : Flatten Computed).run n₁
      = .ok (c, n')) : Rendered A n₀ env₀ T wrap n n' c (z >>= g) := by
  cases h
  exact ⟨by omega, Nat.lt_add_of_pos_right Nat.two_pos, hT, hops.append hn (Nat.le_refl n) fun b => .single (hlast b)⟩

theorem does_nothing :
    Does A n₀ env₀ (fun _ => True) n [] (pure () : Steps V S F Unit) fun _ _ => True :=
  .nil fun _ _ => trivial

theorem renders_leaf (hn : n₀ ≤ n) (hle : n ≤ n₁) (hT : T type)
    (hops : Does A n₀ env₀ (fun _ => True) n ops z G)
    (hargs : ∀ b env, G b env → ∃ args, operands.mapM (fun v => env v.id) = some args ∧
      A.operate code args = do return some (wrap (← g b)))
    (h : (do return .followedBy ops (← compute code operands type) : Flatten Computed).run n₁
      = .ok (c, n')) (hsome : ∀ b p, (g b p).isSome = true := by intros; rfl) (hleaf : ∀ k env p,
      A.meaning.evalOp k (.mk (n₁ + 1) (.flat code) operands [⟨n₁, type⟩] []) env p =
        A.meaning.straight code (n₁ + 1) operands [⟨n₁, type⟩] env p := by intros; rfl) :
    Rendered A n₀ env₀ T wrap n n' c (z >>= g) := by
  refine renders_followedBy hn hle hT hops (fun b k env p _ hb => ?_) h
  obtain ⟨args, hargs, hop⟩ := hargs b env hb
  rw [hleaf]
  refine (agrees_straight hargs hop (hsome b p)).imp fun a env' ⟨ha, hsame⟩ => ?_
  exact ⟨ha, fun i hi => hsame i (Nat.lt_of_lt_of_le hi hle)⟩

variable {x x' x'' : Flatten Computed} {y y' y'' : Steps V S F V} {l : Steps V S F L}

theorem renders_loaded (h : RendersLocation A n₀ env₀ x l) :
    RendersValue A n₀ env₀ (loaded x) (do (A.load (← l)).steps) := by
  intro n c n' hn hrun
  obtain ⟨a, n₁, ha, hrun⟩ := of_run_bind hrun
  obtain ⟨hle, _, ⟨_, htype, hplain⟩, hdoes⟩ := h n a n₁ hn ha
  rw [htype] at hrun
  refine renders_leaf hn hle hplain hdoes (fun l _ hl => ⟨[.location l], ?_, rfl⟩) hrun
  simp [hl]

theorem renders_value (h : RendersValue A n₀ env₀ x y) : RendersValue A n₀ env₀ (loaded x) y := by
  intro n c n' hn hrun
  obtain ⟨a, n₁, ha, hrun⟩ := of_run_bind hrun
  obtain ⟨hle, hbelow, hplain, hdoes⟩ := h n a n₁ hn ha
  split at hrun
  next hmemory =>
    rw [hmemory] at hplain
    exact hplain.elim
  · cases hrun
    exact ⟨hle, hbelow, hplain, hdoes⟩

theorem renders_literalRule (v : Literal) :
    RendersValue A n₀ env₀ (literalRule v) (A.literal v).steps := by
  intro n c n' hn hrun
  have hplain : IsPlain v.type := by cases v <;> trivial
  exact renders_leaf (g := fun _ => (A.literal v).steps) hn (Nat.le_refl n) hplain does_nothing
    (fun _ _ _ => ⟨[], rfl, rfl⟩) hrun

theorem renders_unaryRule (h : RendersValue A n₀ env₀ x y) :
    RendersValue A n₀ env₀ (unaryRule op x) (do (A.unary op (← y)).steps) := by
  intro n c n' hn hrun
  obtain ⟨a, n₁, ha, hrun⟩ := of_run_bind hrun
  obtain ⟨hle, _, hplain, hdoes⟩ := h n a n₁ hn ha
  refine renders_leaf hn hle hplain hdoes (fun v _ hv => ⟨[.value v], ?_, rfl⟩) hrun
  simp [hv]

theorem does_two {a b : Computed} (hn : n₀ ≤ n) (hle : n ≤ n₁) (hbelow : a.value.id < n₁)
    (ha : Gives A n₀ env₀ .value n a y) (hb : Gives A n₀ env₀ .value n₁ b y') :
    Does A n₀ env₀ (fun _ => True) n (a.ops ++ b.ops) (do
        let v ← y
        let w ← y'
        return (v, w)) fun r env =>
      [a.value, b.value].mapM (fun v => env v.id) = some [.value r.1, .value r.2] := by
  refine ha.append hn hle fun v => ?_
  have hframe := hb.frame (K := fun env => env a.value.id = some (.value v)) fun env _ hsame h =>
    (hsame _ hbelow).trans h
  rw [← append_nil b.ops]
  exact hframe.append (Nat.le_trans hn hle) (Nat.le_refl n₁) fun w => .nil fun env h => by
    simp [h.1, h.2]

theorem isPlain_binaryType {s t u : Ty} (ht : IsPlain t) (h : binaryType op s t = .ok u) :
    IsPlain u := by
  obtain ⟨r, hr, rfl⟩ := map_eq_ok_iff.mp h
  have hplain : IsPlain r := by
    split at hr
    · cases hr
      split
      · exact ht
      · trivial
    · cases hr
      exact ht
    · split at hr
      · cases hr
        exact ht
      · cases hr
  split
  · trivial
  · exact hplain

theorem agrees_operandBlock
    {next : Datum V L → Env (Datum V L) → Progress S V → Outcome (Datum V L) (Progress S V) F}
    {f : V → Steps V S F α} {Q : α → Env (Datum V L) → Prop}
    (hops : ops = c.ops ++ [.mk m (.flat .yield) [c.value] [] []])
    (hdoes : Gives A n₀ env₀ .value n c y) (hsame : Same n₀ env₀ env)
    (hnext : ∀ v env' p', Same n env env' → Agrees (next (.value v) env' p') (f v p') Q) :
    Agrees (Region.valued ⟨A.meaning.evalOps k ops, (yieldOf ops).map Val.id⟩ env p next)
      ((y >>= f) p) Q := by
  have hyield : (yieldOf ops).map Val.id = some c.value.id := by
    rw [hops, yieldOf, getLast?_concat]
    rfl
  rw [Region.valued, hyield, hops]
  simp only [evalOps_append, Outcome.andThen_assoc]
  refine (hdoes k env p hsame trivial).bind fun v env' p' ⟨hv, hframe⟩ => ?_
  simp only [evalOps, evalOp, perform, Outcome.andThen, Option.bind_some, hv]
  exact hnext v env' p' hframe

theorem agrees_conclude {env' : Env (Datum V L)} {v : V} (hle : n ≤ m) (hsame : Same n env env') :
    Agrees (conclude env' [⟨m, type⟩] (some (.value v)) p : Outcome (Datum V L) (Progress S V) F)
      ((pure v : Steps V S F V) p) fun a env' => env' m = some (.value a) ∧ Same n env env' :=
  ⟨_, rfl, Env.set_self, hsame.trans (.set m env' _) hle⟩

theorem agrees_chosen {j : Nat} {env₁ : Env (Datum V L)} (hn : n₀ ≤ n)
    (hle : n ≤ n₁) (hle' : n ≤ m) (hdoes : Gives A n₀ env₀ .value n₁ c y) (hbase : Same n₀ env₀ env)
    (hsame : Same n env env₁) :
    Agrees (Region.valued ⟨A.meaning.evalOps k (c.ops ++ [.mk j (.flat .yield) [c.value] [] []]),
          (yieldOf (c.ops ++ [.mk j (.flat .yield) [c.value] [] []])).map Val.id⟩ env₁ p
        fun v env s => conclude env [⟨m, type⟩] (some v) s)
      (y p) fun a env' => env' m = some (.value a) ∧ Same n env env' := by
  rw [← bind_pure y]
  exact agrees_operandBlock rfl hdoes (hbase.trans hsame hn) fun v env' _ hframe =>
    agrees_conclude hle' (hsame.trans hframe hle)

theorem truth?_value (v : V) : A.meaning.truth? (.value v) = some (A.truth v) :=
  rfl

theorem renders_choiceRule (hc : RendersValue A n₀ env₀ x y) (ha : RendersValue A n₀ env₀ x' y')
    (hb : RendersValue A n₀ env₀ x'' y'') :
    RendersValue A n₀ env₀ (choiceRule x x' x'') (do if A.truth (← y) then y' else y'') := by
  intro n r n' hn hrun
  obtain ⟨c, n₁, a, n₂, hx, hx', hrun⟩ := of_run_bind₂ hrun
  obtain ⟨b, n₃, hx'', hrun⟩ := of_run_bind hrun
  obtain ⟨_, _, -, hcond⟩ := hc n c n₁ hn hx
  obtain ⟨_, -, hplain, hyes⟩ := ha n₁ a n₂ (by omega) hx'
  obtain ⟨_, -, -, hno⟩ := hb n₂ b n₃ (by omega) hx''
  obtain ⟨_, _, _, _, hfirst, hsecond, hrun⟩ := of_run_bind₂ hrun
  cases hfirst
  cases hsecond
  refine renders_followedBy hn (by omega) hplain hcond (fun v k _ p hsame hv => ?_) hrun
  simp only [evalOp, perform, evalRegions, Block.plain, test,
    head?_cons, Option.bind_some, hv, truth?_value]
  cases A.truth v with
  | true => exact agrees_chosen hn (by omega) (by omega) hyes hsame fun _ _ => rfl
  | false => exact agrees_chosen hn (by omega) (by omega) hno hsame fun _ _ => rfl

theorem renders_lazy {a b : Computed} {n₂ : Nat} (hop : op = "and" ∨ op = "or") (hn : n₀ ≤ n)
    (hle : n ≤ n₁) (hle₁ : n₁ ≤ n₂) (hplain : IsPlain type) (ha : Gives A n₀ env₀ .value n a y)
    (hb : Gives A n₀ env₀ .value n₁ b y') (hrun : (do
      let first ← operandBlock a
      let second ← operandBlock b
      return .followedBy [] (← compute (.lazyBinary op) [] type [first, second]) :
        Flatten Computed).run n₂ = .ok (c, n')) :
    Rendered A n₀ env₀ IsPlain .value n n' c (do
      let v ← y
      if op = "and" && !A.truth v || op = "or" && A.truth v then return v else y') := by
  replace hrun := of_run_step hrun rfl
  rw [← pure_bind () fun _ => y >>= _]
  refine renders_followedBy hn (by omega) hplain does_nothing (fun _ k _ p hsame _ => ?_) hrun
  obtain rfl | rfl := hop
  · refine agrees_operandBlock rfl ha hsame fun v env₁ p₁ hframe => ?_
    simp only [test, Option.bind_some, truth?_value]
    cases A.truth v with
    | true => exact agrees_chosen hn hle (by omega) hb hsame hframe
    | false => exact agrees_conclude (by omega) hframe
  · refine agrees_operandBlock rfl ha hsame fun v env₁ p₁ hframe => ?_
    simp only [test, Option.bind_some, truth?_value]
    cases A.truth v with
    | true => exact agrees_conclude (by omega) hframe
    | false => exact agrees_chosen hn hle (by omega) hb hsame hframe

theorem renders_binaryRule (ha : RendersValue A n₀ env₀ x y) (hb : RendersValue A n₀ env₀ x' y') :
    RendersValue A n₀ env₀ (binaryRule op x x') (do
      let v ← y
      if op = "and" && !A.truth v || op = "or" && A.truth v then return v else
        let w ← y'
        if op = "and" || op = "or" then return w else (A.binary op v w).steps) := by
  intro n c n' hn hrun
  obtain ⟨a, n₁, b, n₂, hx, hx', hrun⟩ := of_run_bind₂ hrun
  obtain ⟨_, _, hlift, hrun⟩ := of_run_bind hrun
  obtain ⟨htype, hn₃⟩ := run_lift_ok_iff.mp hlift
  rw [hn₃] at hrun
  obtain ⟨hle, hbelow, -, hfirst⟩ := ha n a n₁ hn hx
  obtain ⟨hle₁, -, hplain, hsecond⟩ := hb n₁ b n₂ (by omega) hx'
  have hresult := isPlain_binaryType hplain htype
  by_cases hop : op = "and" ∨ op = "or"
  · have hlazy : (op = "or" || op = "and") = true := by simpa using hop.symm
    rw [if_pos hlazy] at hrun
    have hsource : (op = "and" || op = "or") = true := by simpa using hop
    simp only [hsource, if_true, bind_pure]
    exact renders_lazy hop hn hle hle₁ hresult hfirst hsecond hrun
  · have hand : op ≠ "and" := fun h => hop (.inl h)
    have hor : op ≠ "or" := fun h => hop (.inr h)
    have hstrict : ¬(op = "or" || op = "and") = true := by simp [hand, hor]
    rw [if_neg hstrict] at hrun
    have hleaf : Rendered A n₀ env₀ _ .value n n' c _ :=
      renders_leaf (g := fun r => (A.binary op r.1 r.2).steps) hn (Nat.le_trans hle hle₁) hresult
        (does_two hn hle hbelow hfirst hsecond) (fun r _ h => ⟨_, h, rfl⟩) hrun
    simpa [hand, hor] using hleaf

theorem renders_indexRule (ha : RendersValue A n₀ env₀ x y) (hi : RendersValue A n₀ env₀ x' y') :
    RendersLocation A n₀ env₀ (indexRule x x') (do
      let v ← y
      let w ← y'
      (A.element v w).steps) := by
  intro n c n' hn hrun
  obtain ⟨a, n₁, i, n₂, hx, hx', hrun⟩ := of_run_bind₂ hrun
  obtain ⟨hle, hbelow, hplain, hfirst⟩ := ha n a n₁ hn hx
  obtain ⟨hle₁, -, -, hsecond⟩ := hi n₁ i n₂ (by omega) hx'
  have htwo := does_two hn hle hbelow hfirst hsecond
  suffices h : Rendered A n₀ env₀ IsPlainLocation .location n n' c
      ((do let v ← y; let w ← y'; return (v, w)) >>= fun r => (A.element r.1 r.2).steps) by
    simpa using h
  split at hrun
  next elem htype =>
    replace hrun := of_run_step hrun rfl
    rw [htype] at hplain
    exact renders_leaf hn (Nat.le_trans hle hle₁) ⟨elem, rfl, hplain⟩ htwo
      (fun r env h => ⟨_, h, rfl⟩) hrun
  split at hrun
  · replace hrun := of_run_step hrun rfl
    exact renders_leaf hn (Nat.le_trans hle hle₁) ⟨.str, rfl, trivial⟩ htwo
      (fun r env h => ⟨_, h, rfl⟩) hrun
  · obtain ⟨code, n₃, hcode, -⟩ := of_run_bind hrun
    cases hcode

variable (A n₀ env₀) in
def RendersAll (x : Flatten (List Computed)) (y : Steps V S F (List V)) : Prop :=
  ∀ n cs n', n₀ ≤ n → x.run n = .ok (cs, n') → n ≤ n' ∧
    Does A n₀ env₀ (fun _ => True) n (cs.flatMap Computed.ops) y fun vs env =>
      (cs.map Computed.value).mapM (fun v => env v.id) = some (vs.map .value)

theorem mapM_value? (vs : List V) :
    (vs.map (Datum.value (L := L))).mapM Datum.value? = some vs := by
  induction vs with
  | nil => rfl
  | cons v vs ih => simp [Datum.value?, ih]

theorem renders_callRule {func : String} {hint : Option Ty} {xs : Flatten (List Computed)}
    {ys : Steps V S F (List V)} (hhint : ∀ t ∈ hint, IsPlain t) (h : RendersAll A n₀ env₀ xs ys) :
    RendersValue A n₀ env₀ (callRule func xs hint) (do A.called func (← ys)) := by
  intro n c n' hn hrun
  obtain ⟨cs, n₁, hxs, hrun⟩ := of_run_bind hrun
  obtain ⟨hle, hdoes⟩ := h n cs n₁ hn hxs
  match hint, hhint, hrun with
  | some type, hhint, hrun =>
    refine renders_leaf hn hle (hhint type rfl) hdoes (fun _ _ h => ⟨_, h, ?_⟩) hrun
    simp only [Language.operate, mapM_value?]
  | none, _, hrun => cases hrun

theorem isPlain_of_toTy? : ∀ {t : SourceType} {u : Ty}, t.toTy? = some u → IsPlain u
  | .list elem, _, h => by
    obtain ⟨e, he, rfl⟩ := Option.map_eq_some_iff.mp h
    have hplain : IsPlain e := isPlain_of_toTy? he
    exact hplain
  | .int, _, rfl | .bool, _, rfl | .str, _, rfl | .none, _, rfl | .empty, _, rfl
  | .object, _, rfl => trivial

theorem run_checked_ok_iff {x : Check α} {a : α} :
    (checked x).run n = .ok (a, n') ↔ x = .ok a ∧ n' = n := by
  constructor
  · intro h
    cases x with
    | error e => cases h
    | ok b =>
      cases h
      exact ⟨rfl, rfl⟩
  · rintro ⟨rfl, rfl⟩
    rfl

theorem run_displayType {ts : List Ty} {t : Ty} (h : (displayType ts).run n = .ok (t, n')) :
    n' = n ∧ IsPlain t := by
  have hfold : ∀ (ts : List Ty) (u u' : SourceType) (n n' : Nat), (ts.foldlM
      (fun (u : SourceType) t => do return u.join (← checked (SourceType.ofTy t))) u :
        Flatten SourceType).run n = .ok (u', n') → n' = n := by
    intro ts
    induction ts with
    | nil =>
      intro u u' n n' h
      cases h
      rfl
    | cons t ts ih =>
      intro u u' n n' h
      obtain ⟨_, n₁, hstep, h⟩ := of_run_bind h
      obtain ⟨s, n₂, hs, hstep⟩ := of_run_bind hstep
      cases hstep
      rw [ih _ _ _ _ h, (run_checked_ok_iff.mp hs).2]
  cases ts with
  | nil =>
    cases h
    exact ⟨rfl, trivial⟩
  | cons t ts =>
    obtain ⟨_, n₁, _, n₂, hfirst, hjoined, h⟩ := of_run_bind₂ h
    obtain ⟨u, _, hu, h⟩ := of_run_bind h
    cases h
    obtain ⟨hu, rfl⟩ := run_checked_ok_iff.mp hu
    refine ⟨(hfold _ _ _ _ _ hjoined).trans (run_checked_ok_iff.mp hfirst).2, ?_⟩
    unfold SourceType.toTy at hu
    split at hu
    next hty =>
      cases hu
      have hplain : IsPlain u := isPlain_of_toTy? hty
      exact hplain
    · cases hu

theorem renders_listRule {xs : Flatten (List Computed)} {ys : Steps V S F (List V)}
    (h : RendersAll A n₀ env₀ xs ys) :
    RendersValue A n₀ env₀ (listRule xs) (do (A.list (← ys)).steps) := by
  intro n c n' hn hrun
  obtain ⟨cs, n₁, _, _, hxs, htype, hrun⟩ := of_run_bind₂ hrun
  obtain ⟨hle, hdoes⟩ := h n cs n₁ hn hxs
  obtain ⟨hn₂, hplain⟩ := run_displayType htype
  refine renders_leaf hn (hn₂ ▸ hle) hplain hdoes (fun _ _ h => ⟨_, h, ?_⟩) hrun
  simp only [Language.operate, mapM_value?]

/-! ## Targets -/

variable (A n₀ env₀) in
/-- Operations for a target, which can be stored to if it is a location. -/
def RendersTarget (x : Flatten Computed) (l : Steps V S F L) : Prop :=
  ∀ n c n', n₀ ≤ n → x.run n = .ok (c, n') → n ≤ n' ∧ ∀ content, c.value.type = .memory content →
    Gives A n₀ env₀ .location n c l

theorem renders_targets {xs : List (Flatten Computed)} {ls : List (Steps V S F L)}
    (h : Forall₂ (RendersTarget A n₀ env₀) xs ls) :
    ∀ {n : Nat} {cs : List Computed} {n' : Nat}, n₀ ≤ n → (xs.mapM id).run n = .ok (cs, n') →
      Forall₂ (fun c l => ∀ content, c.value.type = .memory content →
        Gives A n₀ env₀ .location n c l) cs ls := by
  induction h with
  | nil =>
    intro n cs n' _ hrun
    cases hrun
    exact .nil
  | cons hx _ ih =>
    intro n cs n' hn hrun
    rw [mapM_cons] at hrun
    obtain ⟨c, n₁, _, _, hc, hrest, hrun⟩ := of_run_bind₂ hrun
    cases hrun
    obtain ⟨hle, hdoes⟩ := hx n c n₁ hn hc
    refine .cons hdoes ((ih (Nat.le_trans hn hle) hrest).imp fun c l hl content htype => ?_)
    exact (hl content htype).mono hle

theorem agrees_store {t v : Val} {l : L} {w : V} (ht : env t.id = some (.location l))
    (hv : env v.id = some (.value w)) :
    Agrees (A.meaning.evalOp k (.mk m (.flat .store) [t, v] [] []) env p)
      ((A.store l w).steps p) fun _ env' => env' = env := by
  have hargs : [t, v].mapM (fun v => env v.id) = some [.location l, .value w] := by
    simp [ht, hv]
  simp only [evalOp, perform, straight, hargs, Language.meaning,
    Language.operate, bind_apply, Deed.steps]
  cases (A.store l w p.store).1 with
  | error _ => exact ⟨env, rfl⟩
  | ok _ => exact ⟨env, rfl, rfl⟩

theorem does_storeAll {cs : List Computed} {ls : List (Steps V S F L)} {v : Val} (hn : n₀ ≤ n)
    (hv : v.id < n) (h : Forall₂ (fun c l => ∀ content, c.value.type = .memory content →
      Gives A n₀ env₀ .location n c l) cs ls) : ∀ {stores : List (List Op)} {m m' : Nat} (w : V),
      (cs.mapM (storeRule v)).run m = .ok (stores, m') →
      Does A n₀ env₀ (fun env => env v.id = some (.value w)) n stores.flatten (A.storeAll w ls)
        fun _ _ => True := by
  induction h with
  | nil =>
    intro stores m m' w hrun
    cases hrun
    exact .nil fun _ _ => trivial
  | @cons c l cs ls hc _ ih =>
    intro stores m m' w hrun
    rw [mapM_cons] at hrun
    obtain ⟨_, _, _, _, hops, hrest, hrun⟩ := of_run_bind₂ hrun
    cases hrun
    unfold storeRule at hops
    split at hops
    next content htype =>
      cases hops
      have hkept := (hc content htype).frame (K := fun env => env v.id = some (.value w))
        fun env env' hsame h => (hsame _ hv).trans h
      rw [flatten_cons, append_assoc]
      refine hkept.append hn (Nat.le_refl n) fun _ => ?_
      refine Does.append hn (Nat.le_refl n) (.single fun k env p _ h => ?_) fun _ => ih w hrest
      refine (agrees_store h.1 h.2).imp fun _ env' henv => ?_
      subst henv
      exact ⟨h.2, fun _ _ => rfl⟩
    · cases hops

/-! ## Nodes -/

/-- The names of a scope stand for the locations of their variables. -/
def Placed (scope : Scope) (place : String → Option L) (n : Nat) (env : Env (Datum V L)) : Prop :=
  ∀ x v, scope.find? x = some v → v.id < n ∧ IsPlainLocation v.type ∧
    ∃ l, place x = some l ∧ env v.id = some (.location l)

/-- The calls inside of a node are known to give values of the source. -/
def PlainCalls (n : Node) : Prop :=
  ∀ m ∈ n.walk, ∀ func args t, m = .call func args (some t) → IsPlain t

theorem PlainCalls.child {n c : Node} (h : PlainCalls n) (hc : c ∈ n.children) : PlainCalls c :=
  fun m hm => h m (walk_eq n ▸ mem_cons_of_mem _ (mem_flatMap.mpr ⟨c, hc, hm⟩))

variable {scope : Scope} {place : String → Option L}

theorem renders_loadedExpr {e : Node}
    (h : (RendersLocation A n₀ env₀ (expr scope e) (A.locationAt place [e]) ∧
        A.valueOf place e = do (A.load (← A.locationAt place [e])).steps) ∨
      RendersValue A n₀ env₀ (expr scope e) (A.valueOf place e)) :
    RendersValue A n₀ env₀ (loaded (expr scope e)) (A.valueOf place e) := by
  obtain ⟨h, heq⟩ | h := h
  · rw [heq]
    exact renders_loaded h
  · exact renders_value h

theorem renders_valueAt
    (h : ∀ n ∈ ns, RendersValue A n₀ env₀ (loaded (expr scope n)) (A.valueOf place n)) :
    RendersValue A n₀ env₀ (value scope ns) (A.valueAt place ns) := by
  cases ns with
  | nil =>
    intro n c n' _ hrun
    cases hrun
  | cons n ns =>
    exact h n mem_cons_self

theorem renders_valuesOf
    (h : ∀ n ∈ ns, RendersValue A n₀ env₀ (loaded (expr scope n)) (A.valueOf place n)) :
    RendersAll A n₀ env₀ (values scope ns) (A.valuesOf place ns) := by
  induction ns with
  | nil =>
    intro n cs n' _ hrun
    cases hrun
    exact ⟨Nat.le_refl n, .nil fun _ _ => rfl⟩
  | cons e ns ih =>
    rw [forall_mem_cons] at h
    intro n cs n' hn hrun
    obtain ⟨c, n₁, rest, _, hc, hrest, hrun⟩ := of_run_bind₂ hrun
    cases hrun
    obtain ⟨hle, hbelow, -, hdoes⟩ := h.1 n c n₁ hn hc
    obtain ⟨hle₁, hdoes₁⟩ := ih h.2 n₁ rest _ (Nat.le_trans hn hle) hrest
    refine ⟨Nat.le_trans hle hle₁, ?_⟩
    rw [flatMap_cons]
    refine hdoes.append hn hle fun v => ?_
    have hframe := hdoes₁.frame (K := fun env => env c.value.id = some (.value v))
      fun env _ hsame hv => (hsame _ hbelow).trans hv
    rw [← append_nil (rest.flatMap _)]
    refine hframe.append (Nat.le_trans hn hle) (Nat.le_refl n₁) fun _ => .nil fun env hvs => ?_
    rw [map_cons, mapM_cons, hvs.2, hvs.1]
    rfl

variable (hplaced : Placed scope place n₀ env₀)
include hplaced

theorem renders_nameRule (x : String) :
    RendersLocation A n₀ env₀ (nameRule scope x) (Language.variableAt place x) := by
  intro n c n' hn hrun
  unfold nameRule at hrun
  split at hrun
  next v hv =>
    cases hrun
    obtain ⟨hbelow, htype, l, hl, henv⟩ := hplaced x v hv
    refine ⟨Nat.le_refl n, Nat.lt_of_lt_of_le hbelow hn, htype, fun k env p hsame _ => ?_⟩
    rw [Language.variableAt, hl]
    exact ⟨env, rfl, (hsame v.id hbelow).trans henv, fun _ _ => rfl⟩
  · cases hrun

/-- The operations of a variable or an element give its location, and those of any other expression
its value. -/
theorem renders_expr (e : Node) (hcalls : PlainCalls e) :
    (RendersLocation A n₀ env₀ (expr scope e) (A.locationAt place [e]) ∧
        A.valueOf place e = do (A.load (← A.locationAt place [e])).steps) ∨
      RendersValue A n₀ env₀ (expr scope e) (A.valueOf place e) := by
  induction e using childrenInduction with
  | h e ih =>
    have hchild : ∀ c ∈ e.children,
        RendersValue A n₀ env₀ (loaded (expr scope c)) (A.valueOf place c) :=
      fun c hc => renders_loadedExpr (ih c hc (hcalls.child hc))
    have hat (ns : List Node) (hns : ns ∈ e.places := by simp [places]) :
        RendersValue A n₀ env₀ (value scope ns) (A.valueAt place ns) :=
      renders_valueAt fun c hc => hchild c (mem_flatten.mpr ⟨ns, hns, hc⟩)
    cases e with
    | literal v hint =>
      exact .inr (renders_literalRule v)
    | name x hint =>
      exact .inl ⟨renders_nameRule hplaced x, rfl⟩
    | unary op a hint =>
      exact .inr (renders_unaryRule (hat a))
    | binary op a b hint =>
      exact .inr (renders_binaryRule (hat a) (hat b))
    | ifExpr c a b hint =>
      exact .inr (renders_choiceRule (hat c) (hat a) (hat b))
    | listExpr _ hint =>
      exact .inr (renders_listRule (renders_valuesOf fun c hc =>
        hchild c (by simpa [children, places] using hc)))
    | call func args hint =>
      refine .inr (renders_callRule (fun t ht => ?_) (renders_valuesOf fun c hc =>
        hchild c (by simpa [children, places] using hc)))
      exact hcalls _ (walk_eq _ ▸ mem_cons_self) func args t (by rw [ht])
    | index a i hint =>
      rw [Language.valueOf, Language.locationAt]
      refine .inl ⟨renders_indexRule (hat a) (hat i), ?_⟩
      simp only [bind_assoc]
    | _ =>
      refine .inr fun n c _ _ hrun => ?_
      cases hrun

/-! ## Assignments -/

theorem renders_target (hcalls : ∀ c ∈ ns, PlainCalls c) :
    RendersTarget A n₀ env₀ (target scope ns) (A.locationAt place ns) := by
  intro n c n' hn hrun
  cases ns with
  | nil => cases hrun
  | cons e ns =>
    have hhead : A.locationAt place (e :: ns) = A.locationAt place [e] := by cases e <;> rfl
    obtain ⟨h, -⟩ | h := renders_expr hplaced e (hcalls e mem_cons_self)
    · obtain ⟨hle, -, -, hdoes⟩ := h n c n' hn hrun
      exact ⟨hle, fun _ _ => hhead ▸ hdoes⟩
    · obtain ⟨hle, -, hplain, -⟩ := h n c n' hn hrun
      refine ⟨hle, fun _ htype => ?_⟩
      rw [htype] at hplain
      exact hplain.elim

theorem renders_chain (e : Node) (hcalls : PlainCalls e) :
    RendersValue A n₀ env₀ (chain scope e).value (A.sides place e).1 ∧
      Forall₂ (RendersTarget A n₀ env₀) (chain scope e).targets (A.sides place e).2 := by
  induction e using childrenInduction with
  | h e ih =>
    have hvalue := renders_loadedExpr (renders_expr (A := A) hplaced e hcalls)
    cases e with
    | assign t v =>
      have htarget : RendersTarget A n₀ env₀ (target scope t) (A.locationAt place t) :=
        renders_target hplaced fun c hc => hcalls.child (by simp [children, places, hc])
      cases v with
      | nil =>
        refine ⟨fun n c _ _ hrun => ?_, .cons htarget .nil⟩
        cases hrun
      | cons e ns =>
        have hmem : e ∈ (assign t (e :: ns)).children := by simp [children, places]
        exact ⟨(ih e hmem (hcalls.child hmem)).1, .cons htarget (ih e hmem (hcalls.child hmem)).2⟩
    | _ =>
      exact ⟨hvalue, .nil⟩

theorem does_assignment {e : Node} (hcalls : PlainCalls e) (hn : n₀ ≤ n)
    (hrun : (assignRule (chain scope e)).run n = .ok (ops, n')) :
    Does A n₀ env₀ (fun _ => True) n ops (A.assignment place e) fun _ _ => True := by
  obtain ⟨hvalue, htargets⟩ := renders_chain (A := A) hplaced e hcalls
  obtain ⟨v, n₁, _, _, hv, hts, hrun⟩ := of_run_bind₂ hrun
  obtain ⟨_, _, hstores, hrun⟩ := of_run_bind hrun
  cases hrun
  obtain ⟨hle, hbelow, -, hdoes⟩ := hvalue n v n₁ hn hv
  exact hdoes.append hn hle fun w =>
    does_storeAll (Nat.le_trans hn hle) hbelow (renders_targets htargets (Nat.le_trans hn hle) hts) w
      hstores

end Rendering

/-- The operations of an expression and of an assignment do what evaluation from the left to the
right does: they end with the same value, store and calls, or with the same failure. -/
theorem evaluated_left_to_right (A : Language V L S F) {scope : Scope} {place : String → Option L}
    {n : Nat} {env : Env (Datum V L)} (hplaced : Placed scope place n env) {e : Node}
    {t v : List Node} (he : PlainCalls e) (htv : PlainCalls (.assign t v)) (k : Nat) (p : Progress S V) :
    (∀ c n', (value scope [e]).run n = .ok (c, n') →
      Agrees (A.meaning.evalOps k c.ops env p) (A.valueOf place e p) fun w env' =>
        env' c.value.id = some (.value w) ∧ Same n env env') ∧
    ∀ ops n', (stmt scope (.assign t v)).run n = .ok (ops, n') →
      Agrees (A.meaning.evalOps k ops env p) (A.assignment place (.assign t v) p) fun _ env' =>
        Same n env env' := by
  refine ⟨fun c n' hrun => ?_, fun ops n' hrun => ?_⟩
  · have hrenders := renders_loadedExpr (renders_expr (A := A) hplaced e he)
    exact (hrenders n c n' (Nat.le_refl n) hrun).gives k env p (fun _ _ => rfl) trivial
  · have hdoes := does_assignment (A := A) hplaced htv (Nat.le_refl n) hrun
    exact (hdoes k env p (fun _ _ => rfl) trivial).imp fun _ _ h => h.2

namespace Chained

/-- Integers as values and as the numbers of their locations, where an element lies behind the
location that stands for its list. -/
def integers : Language Int Nat (Nat → Int) Unit where
  truth v := v != 0
  literal
    | .int n _ => fun s => (.ok n, s)
    | _ => fun s => (.ok 0, s)
  unary _ v s := (.ok (-v), s)
  binary _ v w s := (.ok (v + w), s)
  list _ s := (.ok 0, s)
  element v i s := (.ok (v + i).toNat, s)
  call _ _ s := (.ok 0, s)
  load l s := (.ok (s l), s)
  store l v s := (.ok (), fun k => if k = l then v else s k)

def chained : Node :=
  .assign [.name "b" none] [.assign
    [.index [.name "a" none] [.binary "+" [.name "b" none] [.literal (.int 1 32) none] none] none]
    [.index [.name "a" none] [.name "b" none] none]]

def scope : Scope :=
  { inner := [("a", ⟨0, .memory (.list .int)⟩), ("b", ⟨1, .memory .int⟩)] }

def place (x : String) : Option Nat :=
  if x = "a" then some 0 else if x = "b" then some 1 else none

def locations : Env (Datum Int Nat) := fun id => if id < 2 then some (.location id) else none

/-- The list `[3, 1, 0]` from ten on, and its last position as the variable. -/
def start : Progress (Nat → Int) Int where
  store l := if l = 0 then 10 else if l = 1 then 2 else [3, 1, 0].getD (l - 10) 7
  calls := []

theorem placed_scope : Placed scope place 2 locations := by
  intro x v h
  by_cases ha : x = "a"
  · subst ha
    cases h
    exact ⟨by decide, ⟨_, rfl, trivial⟩, 0, rfl, rfl⟩
  by_cases hb : x = "b"
  · subst hb
    cases h
    exact ⟨by decide, ⟨_, rfl, trivial⟩, 1, rfl, rfl⟩
  · simp [Scope.find?, scope, lookup_cons, beq_false_of_ne ha, beq_false_of_ne hb] at h

theorem plainCalls_chained : PlainCalls chained := by
  rintro m hm _ _ t rfl
  simp [chained, walk, walkAll] at hm

/-- The element that is stored to is the one behind the new position. -/
theorem evaluated_left_to_right_chained : Placed scope place 2 locations ∧ PlainCalls chained ∧
    ∃ ops n' env p, (stmt scope chained).run 2 = .ok (ops, n') ∧
      integers.meaning.evalOps 0 ops locations start = .ended .behind env p ∧
      p.store 1 = 0 ∧ p.store 11 = 0 ∧ p.store 13 = 7 := by
  obtain ⟨⟨ops, n'⟩, hrun⟩ : ∃ r, (stmt scope chained).run 2 = .ok r := ⟨_, rfl⟩
  obtain ⟨env, hend, -⟩ := (evaluated_left_to_right integers placed_scope plainCalls_chained
    plainCalls_chained 0 start).2 ops n' hrun
  exact ⟨placed_scope, plainCalls_chained, ops, n', env, _, hrun, hend, by decide, by decide,
    by decide⟩

end Chained

end Practicum.Flat
