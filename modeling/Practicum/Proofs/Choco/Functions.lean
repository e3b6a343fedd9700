import Practicum.Choco.Node.Verify
import Practicum.Choco.Scope
import Practicum.Choco.Typing.Env
import Practicum.Proofs.Runs

/-!
# The functions that a program knows

In a tree that is in order, functions are defined at the top of a program and nowhere else. So the
environment of a program knows only the functions that are always there and those that the program
defines.
-/

namespace Practicum.Choco

open List Declared

namespace Node

theorem childrenInduction {motive : Node → Prop}
    (h : ∀ n, (∀ c ∈ n.children, motive c) → motive n) (n : Node) : motive n :=
  h n fun c _ => childrenInduction h c
decreasing_by exact sizeOf_lt_of_mem_children ‹_›

theorem walkAll_eq_flatMap (ns : List Node) : walkAll ns = ns.flatMap walk := by
  induction ns with
  | nil => rfl
  | cons n ns ih => rw [walkAll, ih, flatMap_cons]

theorem walk_eq (n : Node) : walk n = n :: n.children.flatMap walk := by
  cases n <;> simp [walk, children, places, walkAll_eq_flatMap]

/-- Whether a node may stand at the top only. -/
def isOuter : Node → Bool
  | .program .. | .funcDef .. => true
  | _ => false

/-- The sorts of nodes that places below the top ask for. -/
def sorts : List (Node → Bool) :=
  [isExpr, isStmt, isType, isTypedVar, isLiteral, isAssigned]

theorem inner_of_sort {p : Node → Bool} (hp : p ∈ sorts) {n : Node} (h : p n = true) :
    n.isOuter = false ∧ n.isDeclaration = false := by
  simp only [sorts, mem_cons, not_mem_nil, or_false] at hp
  obtain rfl | rfl | rfl | rfl | rfl | rfl := hp <;> cases n <;> first | exact ⟨rfl, rfl⟩ | cases h

/-- All nodes of a place are of one sort. -/
def Sorted (place : List Node) : Prop :=
  ∃ p ∈ sorts, ∀ n ∈ place, p n = true

variable {p : Node → Bool} {place : List Node} {v : Violation} {f : Node → Violation}

theorem require_ok_iff {b : Bool} : require b v = .ok () ↔ b = true := by
  cases b <;> simp [require]

theorem requireAll_ok_iff : requireAll p f place = .ok () ↔ ∀ n ∈ place, p n = true := by
  unfold requireAll
  split
  next hnone => simpa using List.find?_eq_none.mp hnone
  next n hsome =>
    refine iff_of_false nofun fun h => ?_
    simpa [h n (List.mem_of_find?_eq_some hsome)] using List.find?_some hsome

theorem exists_of_isSingle (h : isSingle p place = true) : ∃ n, place = [n] ∧ p n = true := by
  unfold isSingle at h
  split at h
  · exact ⟨_, rfl, h⟩
  · cases h

theorem of_isSingle (h : isSingle p place = true) : ∀ n ∈ place, p n = true := by
  obtain ⟨n, rfl, hn⟩ := exists_of_isSingle h
  exact forall_mem_singleton.mpr hn

theorem Sorted.single (hp : p ∈ sorts) (h : require (isSingle p place) v = .ok ()) : Sorted place :=
  ⟨p, hp, of_isSingle (require_ok_iff.mp h)⟩

theorem Sorted.each (hp : p ∈ sorts) (h : require (place.all p) v = .ok ()) : Sorted place :=
  ⟨p, hp, all_eq_true.mp (require_ok_iff.mp h)⟩

/-- The places of a node that is in order, below the top, hold nodes of one sort. -/
theorem sorted_places {n : Node} (h : n.verifyHere = .ok ()) (hn : n.isOuter = false) :
    ∀ place ∈ n.places, Sorted place := by
  have hexpr : isExpr ∈ sorts := by simp [sorts]
  have hstmt : isStmt ∈ sorts := by simp [sorts]
  have htype : isType ∈ sorts := by simp [sorts]
  cases n with
  | program | funcDef => cases hn
  | typedVar x type | listType _ =>
    exact forall_mem_singleton.mpr (.single htype h)
  | varDef _ _ =>
    obtain ⟨⟨⟩, hdeclared, hinitial⟩ := of_bind h
    exact forall_mem_pair (.single (by simp [sorts]) hdeclared) (.single (by simp [sorts]) hinitial)
  | ifStmt cond yes no =>
    obtain ⟨⟨⟩, ⟨⟩, hcond, hyes, hno⟩ := of_bind₂ h
    exact forall_mem_cons.mpr
      ⟨.single hexpr hcond, forall_mem_pair (.each hstmt hyes) (.each hstmt hno)⟩
  | whileStmt cond body | forStmt x cond body =>
    obtain ⟨⟨⟩, hcond, hbody⟩ := of_bind h
    exact forall_mem_pair (.single hexpr hcond) (.each hstmt hbody)
  | returnStmt value =>
    refine forall_mem_singleton.mpr ⟨isExpr, hexpr, ?_⟩
    obtain hempty | hsingle := (Bool.or_eq_true _ _).mp (require_ok_iff.mp h)
    · rw [isEmpty_iff.mp hempty]
      exact forall_mem_nil _
    · exact of_isSingle hsingle
  | assign _ value =>
    obtain ⟨⟨⟩, htarget, hvalue⟩ := of_bind h
    exact forall_mem_pair (.single hexpr htarget) (.each (by simp [sorts]) hvalue)
  | unary op _ hint =>
    obtain ⟨⟨⟩, -, hoperand⟩ := of_bind h
    exact forall_mem_singleton.mpr (.single hexpr hoperand)
  | binary op _ _ hint =>
    obtain ⟨⟨⟩, ⟨⟩, -, hlhs, hrhs⟩ := of_bind₂ h
    exact forall_mem_pair (.single hexpr hlhs) (.single hexpr hrhs)
  | ifExpr cond yes no hint =>
    obtain ⟨⟨⟩, ⟨⟩, hcond, hyes, hno⟩ := of_bind₂ h
    exact forall_mem_cons.mpr
      ⟨.single hexpr hcond, forall_mem_pair (.single hexpr hyes) (.single hexpr hno)⟩
  | listExpr elems hint | call f elems hint =>
    exact forall_mem_singleton.mpr (.each hexpr h)
  | index value _ hint =>
    obtain ⟨⟨⟩, hvalue, hposition⟩ := of_bind h
    exact forall_mem_pair (.single hexpr hvalue) (.single hexpr hposition)
  | typeName | globalDecl | nonlocalDecl | passStmt | literal | name =>
    exact forall_mem_nil _

def Orderly (n : Node) : Prop :=
  ∀ m ∈ n.walk, m.verifyHere = .ok ()

theorem Orderly.here {n : Node} (h : Orderly n) : n.verifyHere = .ok () := by
  refine h n ?_
  rw [walk_eq]
  exact mem_cons_self

theorem Orderly.child {n c : Node} (h : Orderly n) (hc : c ∈ n.children) : Orderly c := by
  intro m hm
  refine h m ?_
  rw [walk_eq]
  exact mem_cons_of_mem _ (mem_flatMap.mpr ⟨c, hc, hm⟩)

theorem Orderly.inner {n c : Node} (h : Orderly n) (hn : n.isOuter = false) (hc : c ∈ n.children) :
    c.isOuter = false ∧ c.isDeclaration = false := by
  obtain ⟨place, hplace, hc⟩ := mem_flatten.mp hc
  obtain ⟨p, hp, hsort⟩ := sorted_places h.here hn place hplace
  exact inner_of_sort hp (hsort c hc)

/-- The body of a function holds declarations and statements. -/
theorem Orderly.body {g : String} {params returnType body : List Node}
    (h : Orderly (.funcDef g params returnType body)) :
    (∀ p ∈ params, p.isTypedVar = true) ∧ ∀ c ∈ body, Orderly c ∧ c.isOuter = false := by
  obtain ⟨⟨⟩, hparams, h1⟩ := of_bind h.here
  refine ⟨requireAll_ok_iff.mp hparams, fun c hc => ⟨h.child (by simp [children, places, hc]), ?_⟩⟩
  split at h1
  · obtain ⟨⟨⟩, -, hbody⟩ := of_bind h1
    rw [← takeWhile_append_dropWhile (p := isDeclaration) (l := body), mem_append] at hc
    obtain hc | hc := hc
    · have hall := all_eq_true.mp (all_takeWhile (p := isDeclaration) (l := body)) c hc
      cases c <;> first | rfl | cases hall
    · exact (inner_of_sort (by simp [sorts]) (requireAll_ok_iff.mp hbody c hc)).1
  · cases h1

theorem orderly_of_verifyAll {n : Node} (h : verifyAll [n] = .ok ()) : Orderly n := by
  intro m hm
  refine forM_eq_ok_iff.mp h m ?_
  rw [walkAll_eq_flatMap, flatMap_singleton]
  exact hm

end Node

/-! ## Environments -/

open Node

/-- Every function that an environment knows is of a kind. -/
def Env.Functions (P : String → FunctionInfo → Prop) (o : Env) : Prop :=
  ∀ f info, (f, Entry.function info) ∈ o → P f info

variable {P : String → FunctionInfo → Prop} {d d' : Declared} {n : Node}

theorem Env.Functions.put {x : String} {t : SourceType} (h : d.env.Functions P) :
    (d.put x t).env.Functions P := by
  unfold Declared.put
  split
  · exact h
  intro f info hf
  obtain hf | hf := mem_cons.mp hf
  · cases hf
  · exact h f info hf

theorem functions_of_fold {ns : List Node}
    (hstep : ∀ c ∈ ns, ∀ e e' : Declared, e.env.Functions P → e.collect c = .ok e' →
      e'.env.Functions P) (hd : d.env.Functions P)
    (h : ns.attach.foldlM (fun e ⟨c, _⟩ => collect e c) d = .ok d') : d'.env.Functions P := by
  refine foldlM_kept (P := fun e => e.env.Functions P) ?_ hd h
  rintro ⟨c, hc⟩ -
  exact hstep c hc

theorem functions_of_inner (n : Node) : ∀ {d d' : Declared}, Orderly n → n.isOuter = false →
    d.env.Functions P → d.collect n = .ok d' → d'.env.Functions P := by
  induction n using childrenInduction with
  | h n ih =>
    intro d d' horderly hinner hd h
    unfold collect at h
    split at h
    · cases hinner
    obtain ⟨e, hfold, h1⟩ := of_bind h
    have he : e.env.Functions P := functions_of_fold (fun c hc _ _ =>
      ih c hc (horderly.child hc) (horderly.inner hinner hc).1) hd hfold
    split at h1
    · obtain ⟨t, -, h2⟩ := of_bind h1
      cases h2
      exact he.put
    · cases h1
      exact he

def DefinesFunction (defs : List Node) (f : String) : Prop :=
  ∃ params returnType body, .funcDef f params returnType body ∈ defs

theorem of_collect_funcDef {f : String} {params returnType body : List Node}
    (h : d.collect (.funcDef f params returnType body) = .ok d') :
    ∃ inner info, body.attach.foldlM (fun e ⟨c, _⟩ => collect e c)
      { env := d.env, locals := some [] } = .ok inner ∧
      d' = { d with env := (f, .function info) :: inner.env } := by
  rw [collect] at h
  obtain ⟨_, -, h1⟩ := of_bind h
  split at h1
  all_goals
    obtain ⟨_, inner, -, hfold, h3⟩ := of_bind₂ h1
    cases h3
    exact ⟨inner, _, hfold, rfl⟩

theorem functions_of_definition (horderly : Orderly n) (hn : n.isDefinition = true)
    (hP : ∀ f params returnType body info, n = .funcDef f params returnType body → P f info)
    (hd : d.env.Functions P) (h : d.collect n = .ok d') : d'.env.Functions P := by
  cases n with
  | funcDef f params returnType body =>
    obtain ⟨inner, info, hfold, rfl⟩ := of_collect_funcDef h
    have hinner : inner.env.Functions P := by
      refine functions_of_fold (d := ⟨d.env, some []⟩) (fun c hc _ _ => ?_) hd hfold
      exact functions_of_inner c (horderly.body.2 c hc).1 (horderly.body.2 c hc).2
    intro g info' hg
    obtain hg | hg := mem_cons.mp hg
    · cases hg
      exact hP f params returnType body info rfl
    · exact hinner g info' hg
  | varDef _ _ => exact functions_of_inner _ horderly rfl hd h
  | _ => cases hn

/-- The environment of a program knows the functions that are always there and those that the
program defines. -/
theorem functions_of_buildEnv {defs stmts : List Node} {o : Env}
    (hverify : verifyAll [.program defs stmts] = .ok ())
    (h : buildEnv [.program defs stmts] = .ok o) :
    o.Functions fun f info => (f, .function info) ∈ Env.initial ∨ DefinesFunction defs f := by
  have horderly := orderly_of_verifyAll hverify
  obtain ⟨⟨⟩, hdefs, hstmts⟩ := of_bind horderly.here
  obtain ⟨d, hfold, hd⟩ := of_bind h
  cases hd
  obtain ⟨_, hcollect, hnil⟩ := of_bind hfold
  cases hnil
  rw [collect] at hcollect
  · obtain ⟨_, hchildren, hd⟩ := of_bind hcollect
    cases hd
    refine functions_of_fold (fun c hc e _ he hcollect => ?_) (fun f info => .inl) hchildren
    have hchild := horderly.child hc
    rw [children, places, flatten_cons, flatten_cons, flatten_nil, append_nil] at hc
    obtain hc | hc := mem_append.mp hc
    · refine functions_of_definition hchild (requireAll_ok_iff.mp hdefs c hc) ?_ he hcollect
      rintro f params returnType body info rfl
      exact .inr ⟨params, returnType, body, hc⟩
    · have hinner := inner_of_sort (by simp [sorts]) (requireAll_ok_iff.mp hstmts c hc)
      exact functions_of_inner c hchild hinner.1 he hcollect
  · rintro _ _ _ _ ⟨⟩

end Practicum.Choco
