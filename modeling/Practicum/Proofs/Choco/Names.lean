import Practicum.Proofs.Choco.ParsedTrees

/-!
# Names that are declared where they are used

The analysis of names accepts a program exactly if no scope declares a name twice and every name is
declared where it is used.
-/

namespace Practicum.Choco

open List Node Scopes Scope

/-! ## Well-scoped programs -/

/-- The names that a node declares in the scope in which it stands. -/
def declaredNames : Node → List String
  | .funcDef f .. => [f]
  | .varDef (.typedVar x _ :: _) _ => [x]
  | _ => []

/-- The name of a parameter. -/
def paramNames : Node → List String
  | .typedVar x _ => [x]
  | _ => []

/-- The name that a node declares to belong to a scope further out. -/
def outerNames : Node → List String
  | .globalDecl x | .nonlocalDecl x => [x]
  | _ => []

def localNames (params body : List Node) : List String :=
  params.flatMap paramNames ++ body.flatMap outerNames ++ body.flatMap declaredNames

def globalNames (defs : List Node) : List String :=
  ["print", "len", "input"] ++ defs.flatMap declaredNames

/-- A node uses a name that is declared where it must be: in its own scope or in the global one. -/
def UsesDeclared (own global : List String) : Node → Prop
  | .name x _ | .call x _ _ => x ∈ own ∨ x ∈ global
  | .assign (.name x _ :: _) _ | .forStmt x _ _ => x ∈ own
  | .globalDecl x => x ∈ global
  | .nonlocalDecl _ => False
  | _ => True

/-- The scope of a function declares no name twice. -/
def DistinctLocals : Node → Prop
  | .funcDef _ params _ body => (localNames params body).Nodup
  | _ => True

/-- Every name of a node at the top is declared where it is used. The body of a function has a scope
of its own. -/
def AllDeclared (global : List String) : Node → Prop
  | .funcDef _ params _ body =>
    ∀ n ∈ body, ∀ m ∈ n.walk, UsesDeclared (localNames params body) global m
  | n => ∀ m ∈ n.walk, UsesDeclared global global m

/-- No scope declares a name twice, and every name is declared where it is used. -/
structure WellScoped (defs stmts : List Node) : Prop where
  globals : (globalNames defs).Nodup
  locals : ∀ n ∈ defs, DistinctLocals n
  uses : ∀ n ∈ defs ++ stmts, AllDeclared (globalNames defs) n

/-! ## Scopes -/

variable {f : String} {n : Node} {defs stmts params returnType body : List Node}

namespace Scope

variable {s s' : Scope} {x : String} {inner : Option Scope} {ns : List Node}

def declared (s : Scope) : List String :=
  s.names.map Prod.fst

def extend (s : Scope) (entries : List (String × Option Scope)) : Except ScopeError Scope :=
  entries.foldlM (fun s e => s.declare e.1 e.2) s

/-- The scope of a function with these parameters and this body. -/
def ofFunc (params body : List Node) : Scope :=
  .mk ((localNames params body).map (·, none))

/-- What a node enters into the scope in which it stands. -/
def entries : Node → List (String × Option Scope)
  | .funcDef f params _ body => [(f, some (ofFunc params body))]
  | n => (declaredNames n).map (·, none)

/-- The global scope of a program. -/
def ofProgram (defs : List Node) : Scope :=
  .mk (initial.names ++ defs.flatMap entries)

theorem map_fst_entries (n : Node) : (entries n).map Prod.fst = declaredNames n := by
  unfold entries
  split
  · rfl
  · rw [map_map]
    exact map_id _

theorem declared_ofProgram : (ofProgram defs).declared = globalNames defs := by
  rw [declared, ofProgram, names, map_append, map_flatMap, globalNames]
  simp only [map_fst_entries]
  rfl

theorem declared_ofFunc : (ofFunc params body).declared = localNames params body := by
  rw [declared, ofFunc, names, map_map]
  exact map_id _

theorem contains_iff : s.contains x = true ↔ x ∈ s.declared := by
  simp [contains, declared]

theorem extend_ok_iff {es : List (String × Option Scope)} (hs : s.declared.Nodup) :
    s.extend es = .ok s' ↔ s'.declared.Nodup ∧ s' = .mk (s.names ++ es) := by
  induction es generalizing s with
  | nil =>
    cases s
    rw [names, append_nil]
    exact ⟨by rintro ⟨⟩; exact ⟨hs, rfl⟩, fun h => h.2 ▸ rfl⟩
  | cons e es ih =>
    rw [extend, foldlM_cons, declare]
    by_cases hx : s.contains e.1
    · rw [if_pos hx]
      refine iff_of_false nofun ?_
      rintro ⟨h, rfl⟩
      rw [declared, names, map_append, nodup_append] at h
      exact h.2.2 e.1 (contains_iff.mp hx) e.1 (by simp) rfl
    · rw [if_neg hx]
      have hnodup : (mk (s.names ++ [e])).declared.Nodup := by
        rw [contains_iff] at hx
        simp only [declared, names, map_append, map_cons, map_nil] at hx ⊢
        exact nodup_append.mpr ⟨hs, pairwise_singleton .., by grind⟩
      refine (ih hnodup).trans ?_
      simp [names]

theorem foldlM_extend {step : Scope → Node → Except ScopeError Scope}
    {e : Node → List (String × Option Scope)}
    (hstep : ∀ n ∈ ns, ∀ s, step s n = s.extend (e n)) (s : Scope) :
    ns.foldlM step s = s.extend (ns.flatMap e) := by
  induction ns generalizing s with
  | nil => rfl
  | cons n ns ih =>
    rw [forall_mem_cons] at hstep
    rw [foldlM_cons, flatMap_cons, extend, foldlM_append, hstep.1]
    exact bind_congr fun t => ih hstep.2 t

theorem extend_single (s : Scope) : s.extend [(x, inner)] = s.declare x inner := by
  rw [extend, foldlM_cons]
  exact bind_pure _

/-- A node below the top declares its name, and the nodes below it none. -/
theorem build_inner (horderly : Orderly n) (hinner : n.isOuter = false) (s : Scope) :
    s.build n = s.extend (entries n) := by
  induction n using childrenInduction generalizing s with
  | h n ih =>
    have hchildren {f : Scope → _ → Except ScopeError Scope}
        (hf : ∀ t c hc, f t ⟨c, hc⟩ = build t c) : n.children.attach.foldlM f s = .ok s := by
      rw [foldlM_subtype (g := build) hf, unattach_attach,
        foldlM_extend (e := fun _ => []), flatMap_eq_nil_iff.mpr fun _ _ => rfl]
      · rfl
      · intro c hc s
        have hplain := horderly.inner hinner hc
        rw [ih c hc (horderly.child hc) hplain.1]
        cases c with
        | program | funcDef => cases hplain.1
        | varDef => cases hplain.2
        | _ => rfl
    rw [build]
    · rw [hchildren fun _ _ _ => rfl]
      cases n with
      | varDef declared initial =>
        obtain ⟨⟨⟩, hdeclared, -⟩ := of_bind horderly.here
        obtain ⟨v, rfl, hv⟩ := exists_of_isSingle (require_ok_iff.mp hdeclared)
        cases v <;> cases hv
        exact (extend_single s).symm
      | program | funcDef => cases hinner
      | _ => rfl
    · rintro _ _ _ _ rfl
      cases hinner

theorem build_funcDef (horderly : Orderly (.funcDef f params returnType body)) (s : Scope) :
    s.build (.funcDef f params returnType body) =
      empty.extend ((localNames params body).map (·, none)) >>= fun t => s.declare f (some t) := by
  obtain ⟨hparams, hbody⟩ := horderly.body
  rw [build, localNames, map_append, map_append, map_flatMap, map_flatMap, map_flatMap, extend,
    foldlM_append, foldlM_append, bind_assoc, bind_assoc,
    foldlM_extend (e := fun p => (paramNames p).map (·, none))]
  · refine bind_congr fun t => ?_
    rw [foldlM_extend (e := fun c => (outerNames c).map (·, none))]
    · refine bind_congr fun t => ?_
      rw [foldlM_subtype (g := build) fun _ _ _ => rfl, unattach_attach,
        foldlM_extend (e := fun c => (declaredNames c).map (·, none))]
      · rfl
      · intro c hc s
        rw [build_inner (hbody c hc).1 (hbody c hc).2]
        cases c with
        | funcDef => cases (hbody _ hc).2
        | _ => rfl
    · intro c _ s
      cases c with
      | globalDecl | nonlocalDecl => exact (extend_single s).symm
      | _ => rfl
  · intro p hp s
    cases p with
    | typedVar => exact (extend_single s).symm
    | _ => cases hparams _ hp

theorem build_definition_iff (horderly : Orderly n) (hdef : n.isDefinition = true) :
    s.build n = .ok s' ↔ DistinctLocals n ∧ s.extend (entries n) = .ok s' := by
  cases n with
  | funcDef f params returnType body =>
    rw [build_funcDef horderly, bind_eq_ok_iff, entries, extend_single, DistinctLocals]
    simp only [extend_ok_iff (s := empty) .nil]
    constructor
    · rintro ⟨_, ⟨hnodup, rfl⟩, hdeclare⟩
      exact ⟨by rwa [← declared_ofFunc], hdeclare⟩
    · rintro ⟨hlocals, hdeclare⟩
      exact ⟨_, ⟨by rwa [← declared_ofFunc] at hlocals, rfl⟩, hdeclare⟩
  | varDef =>
    rw [build_inner horderly rfl]
    exact (and_iff_right trivial).symm
  | _ => cases hdef

theorem foldlM_build_iff (h : ∀ n ∈ ns, Orderly n ∧ n.isDefinition = true) :
    ns.foldlM build s = .ok s' ↔
      (∀ n ∈ ns, DistinctLocals n) ∧ s.extend (ns.flatMap entries) = .ok s' := by
  induction ns generalizing s with
  | nil => exact (and_iff_right nofun).symm
  | cons n ns ih =>
    rw [forall_mem_cons] at h
    rw [foldlM_cons, flatMap_cons, extend, foldlM_append, bind_eq_ok_iff, bind_eq_ok_iff,
      forall_mem_cons]
    simp only [build_definition_iff h.1.1 h.1.2, ih h.2]
    grind [extend]

/-- The names of a program can be declared exactly if no scope declares one twice. -/
theorem build_program (horderly : Orderly (.program defs stmts)) :
    initial.build (.program defs stmts) = .ok s ↔
      ((globalNames defs).Nodup ∧ ∀ n ∈ defs, DistinctLocals n) ∧ s = .ofProgram defs := by
  obtain ⟨⟨⟩, hdefs, hstmts⟩ := of_bind horderly.here
  have hchild {n : Node} (hn : n ∈ defs ∨ n ∈ stmts) : Orderly n :=
    horderly.child (by simpa [children, places] using hn)
  have hstmts (s : Scope) : stmts.foldlM build s = .ok s := by
    rw [foldlM_extend (e := fun _ => []), flatMap_eq_nil_iff.mpr fun _ _ => rfl]
    · rfl
    · intro n hn s
      have hsort := requireAll_ok_iff.mp hstmts n hn
      rw [build_inner (hchild (.inr hn)) (inner_of_sort (by simp [sorts]) hsort).1]
      cases n <;> first | rfl | cases hsort
  have hbuild : initial.build (.program defs stmts) = defs.foldlM build initial := by
    rw [build, foldlM_subtype (g := build) fun _ _ _ => rfl, unattach_attach, children,
      places, flatten_cons, flatten_cons, flatten_nil, append_nil, foldlM_append]
    · simp only [hstmts]
      exact (bind_pure _).trans (bind_pure _)
    · nofun
  rw [hbuild, foldlM_build_iff fun n hn => ⟨hchild (.inl hn), requireAll_ok_iff.mp hdefs n hn⟩,
    extend_ok_iff (by decide)]
  constructor
  · rintro ⟨hlocals, hnodup, rfl⟩
    exact ⟨⟨declared_ofProgram ▸ hnodup, hlocals⟩, rfl⟩
  · rintro ⟨⟨hglobals, hlocals⟩, rfl⟩
    exact ⟨hlocals, declared_ofProgram.symm ▸ hglobals, rfl⟩

end Scope

/-! ## Uses -/

/-- Where these names are declared in the scope of a node and in the global one. -/
structure Scopes.Declare (c : Scopes) (own global : List String) : Prop where
  here : ∀ x, c.here.contains x = true ↔ x ∈ own
  sees : ∀ x, c.sees x = true ↔ x ∈ own ∨ x ∈ global
  outermost : ∀ x, c.outermost.contains x = true ↔ x ∈ global
  shallow : c.around.length ≤ 1

variable {c : Scopes} {own global : List String}

theorem ite_eq_ok_iff {b : Bool} {e : ScopeError} :
    (if b then .ok () else .error e) = (.ok () : Except ScopeError Unit) ↔ b = true := by
  cases b <;> simp

theorem Scopes.Declare.checkUse_iff (hc : c.Declare own global) (hn : ∀ x e b, n ≠ .forStmt x e b) :
    c.checkUse n = .ok () ↔ UsesDeclared own global n := by
  unfold checkUse
  split
  iterate 2
    · exact ite_eq_ok_iff.trans (hc.sees _)
  · exact ite_eq_ok_iff.trans (hc.here _)
  · exact ite_eq_ok_iff.trans (hc.outermost _)
  · split
    next around => exact absurd hc.shallow (by simp [around])
    · exact iff_of_false nofun nofun
  · refine iff_of_true rfl ?_
    unfold UsesDeclared
    split <;> grind

theorem Scopes.forM_check_iff {ns : List Node} :
    (ns.attach.forM fun ⟨m, _⟩ => c.check m) = .ok () ↔ ∀ m ∈ ns, c.check m = .ok () := by
  rw [forM_eq_ok_iff]
  exact ⟨fun h m hm => h ⟨m, hm⟩ (mem_attach _ _), fun h m _ => h m m.2⟩

theorem Scopes.Declare.check_iff (hc : c.Declare own global) (horderly : Orderly n)
    (hinner : n.isOuter = false) :
    c.check n = .ok () ↔ ∀ m ∈ n.walk, UsesDeclared own global m := by
  induction n using childrenInduction with
  | h n ih =>
    have hchild (m : Node) (hm : m ∈ n.children) := ih m hm (horderly.child hm)
      (horderly.inner hinner hm).1
    have hplace {place : List Node} (hplace : ∀ m ∈ place, m ∈ n.children) :
        (place.attach.forM fun ⟨m, _⟩ => c.check m) = .ok () ↔
          ∀ m ∈ place, ∀ k ∈ m.walk, UsesDeclared own global k := by
      rw [forM_check_iff]
      exact forall₂_congr fun m hm => hchild m (hplace m hm)
    rw [walk_eq, forall_mem_cons, forall_mem_flatMap]
    by_cases hloop : ∃ x e b, n = .forStmt x e b
    · obtain ⟨x, iterable, body, rfl⟩ := hloop
      obtain ⟨⟨⟩, hiterable, -⟩ := of_bind horderly.here
      obtain ⟨e, rfl, -⟩ := exists_of_isSingle (require_ok_iff.mp hiterable)
      rw [children, places, flatten_cons, flatten_cons, flatten_nil, append_nil, singleton_append,
        forall_mem_cons, ← hchild e (by simp [children, places]),
        ← hplace fun m hm => by simp [children, places, hm], UsesDeclared, ← hc.here, check]
      cases c.here.contains x with
      | true => exact seq_eq_ok_iff.trans (and_iff_right rfl).symm
      | false => exact iff_of_false (fun h => by cases h) fun h => by cases h.1
    · rw [check, seq_eq_ok_iff, hplace fun _ => id, hc.checkUse_iff, and_comm]
      · exact fun x e b h => hloop ⟨x, e, b, h⟩
      · rintro _ _ _ _ rfl
        cases hinner
      · exact fun x e b h => hloop ⟨x, e, b, h⟩

/-! ## Programs -/

theorem Scope.function_ofProgram
    (hglobals : (globalNames defs).Nodup) (hf : .funcDef f params returnType body ∈ defs) :
    (ofProgram defs).function f = .ok (.ofFunc params body) := by
  have hmem : (f, some (ofFunc params body)) ∈ (ofProgram defs).names :=
    mem_append_right _ (mem_flatMap.mpr ⟨_, hf, mem_singleton_self _⟩)
  obtain ⟨before, after, hsplit⟩ := append_of_mem hmem
  rw [← declared_ofProgram, declared, hsplit, map_append, nodup_append] at hglobals
  have hlookup : (ofProgram defs).names.lookup f = some (some (ofFunc params body)) :=
    lookup_eq_some_iff.mpr ⟨before, after, hsplit, fun e he => bne_iff_ne.mpr
      (hglobals.2.2 e.1 (mem_map_of_mem he) f mem_cons_self).symm⟩
  rw [function, hlookup]

theorem declare_ofProgram :
    Scopes.Declare { here := .ofProgram defs } (globalNames defs) (globalNames defs) := by
  constructor <;> simp [sees, outermost, contains_iff, declared_ofProgram]

theorem declare_ofFunc : Scopes.Declare { here := .ofFunc params body, around := [.ofProgram defs] }
      (localNames params body) (globalNames defs) := by
  constructor <;> simp [sees, outermost, contains_iff, declared_ofProgram, declared_ofFunc]

theorem check_funcDef_iff
    (hglobals : (globalNames defs).Nodup) (hf : .funcDef f params returnType body ∈ defs)
    (horderly : Orderly (.funcDef f params returnType body)) :
    ({ here := .ofProgram defs } : Scopes).check (.funcDef f params returnType body) = .ok () ↔
      AllDeclared (globalNames defs) (.funcDef f params returnType body) := by
  have hbody := horderly.body.2
  rw [check, function_ofProgram hglobals hf]
  refine forM_check_iff.trans (forall₂_congr fun m hm => ?_)
  exact declare_ofFunc.check_iff (hbody m hm).1 (hbody m hm).2

theorem check_program_iff (hglobals : (globalNames defs).Nodup)
    (horderly : Orderly (.program defs stmts)) :
    ({ here := .ofProgram defs } : Scopes).check (.program defs stmts) = .ok () ↔
      ∀ n ∈ defs ++ stmts, AllDeclared (globalNames defs) n := by
  obtain ⟨⟨⟩, hdefs, hstmts⟩ := of_bind horderly.here
  have hchild (n : Node) (hn : n ∈ defs ++ stmts) :
      ({ here := .ofProgram defs } : Scopes).check n = .ok () ↔
        AllDeclared (globalNames defs) n := by
    have horderly := horderly.child (show n ∈ (Node.program defs stmts).children by
      simpa [children, places] using hn)
    have hsort : n ∈ defs ∧ n.isDefinition = true ∨ n.isOuter = false :=
      (mem_append.mp hn).imp (fun hn => ⟨hn, requireAll_ok_iff.mp hdefs n hn⟩)
        fun hn => (inner_of_sort (by simp [sorts]) (requireAll_ok_iff.mp hstmts n hn)).1
    cases n with
    | program => obtain ⟨-, ⟨⟩⟩ | ⟨⟨⟩⟩ := hsort
    | funcDef =>
      obtain ⟨hmem, -⟩ | ⟨⟨⟩⟩ := hsort
      exact check_funcDef_iff hglobals hmem horderly
    | _ => exact declare_ofProgram.check_iff horderly rfl
  rw [check, seq_eq_ok_iff, forM_check_iff]
  · refine (and_iff_left rfl).trans ?_
    simp only [children, places, flatten_cons, flatten_nil, append_nil]
    exact forall₂_congr hchild
  · nofun
  · nofun

theorem checkNames_eq_ok_iff (horderly : Orderly (.program defs stmts)) :
    checkNames [.program defs stmts] = .ok () ↔ WellScoped defs stmts := by
  have hbuild (s : Scope) := build_program (s := s) horderly
  rw [checkNames, bind_eq_ok_iff, foldlM_cons]
  simp only [foldlM_nil, bind_pure, hbuild]
  constructor
  · rintro ⟨_, ⟨⟨hglobals, hlocals⟩, rfl⟩, hcheck⟩
    exact ⟨hglobals, hlocals,
      (check_program_iff hglobals horderly).mp (forM_eq_ok_iff.mp hcheck _ (mem_singleton_self _))⟩
  · rintro ⟨hglobals, hlocals, huses⟩
    refine ⟨_, ⟨⟨hglobals, hlocals⟩, rfl⟩, forM_eq_ok_iff.mpr fun n hn => ?_⟩
    rw [mem_singleton.mp hn]
    exact (check_program_iff hglobals horderly).mpr huses

theorem checkNames_iff_wellScoped {edition : Edition} {source : String} (he : edition ≠ .first)
    (h : parseProgram edition source = .ok n) :
    ∃ defs stmts, n = .program defs stmts ∧ (checkNames [n] = .ok () ↔ WellScoped defs stmts) := by
  obtain ⟨hprogram, hwhole⟩ := formed_of_parseProgram he h
  cases n with
  | program defs stmts =>
    exact ⟨defs, stmts, rfl, checkNames_eq_ok_iff fun m hm => (hwhole m hm).1⟩
  | _ => cases hprogram

theorem checkNames_iff_wellScoped_countdown : ∃ defs stmts,
    parseProgram .third countdownSource = .ok (.program defs stmts) ∧ WellScoped defs stmts := by
  have hok : ((parseProgram .third countdownSource).mapError (fun _ => ()) >>= fun n =>
      (checkNames [n]).mapError fun _ => ()) = .ok () := by decide +kernel
  obtain ⟨n, hparse, hnames⟩ := of_bind hok
  have hn := mapError_eq_ok_iff.mp hparse
  obtain ⟨defs, stmts, rfl, hiff⟩ := checkNames_iff_wellScoped (by decide) hn
  exact ⟨defs, stmts, hn, hiff.mp (mapError_eq_ok_iff.mp hnames)⟩

end Practicum.Choco
