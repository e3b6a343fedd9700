import Practicum.Compiler.Command
import Practicum.Proofs.Choco.Names
import Practicum.Proofs.Flat.Flattening
import Practicum.Proofs.Flat.TidyFolding
import Practicum.Proofs.Machine.Linking

/-!
# The labels of compiled programs

Every label to which an instruction of a compiled program leads is defined in the text of the program,
with one exception: a conditional statement jumps past its second block to the label of a conditional
expression of its number, while it is its own label that it places.
-/

namespace Practicum

variable {text : String} {w w' : Workspace} {m : IR.Module} {ns ns' defs : List Node}

namespace Riscv

/-! ## Labels in a text -/

def DefinesLabel (text name : String) : Prop :=
  '\n' :: (name ++ ":\n").toList <:+: text.toList

/-- A label is defined by one of the lines of a program, or by the text behind them. -/
def Defined (lines : List Line) (name : String) : Prop :=
  .label name ∈ lines ∨ name = "_malloc"

instance (lines : List Line) (name : String) : Decidable (Defined lines name) :=
  inferInstanceAs (Decidable (_ ∨ _))

theorem getLast?_newline (s : String) : (s ++ "\n").toList.getLast? = some '\n' := by
  rw [String.toList_append]
  exact List.getLast?_concat

theorem getLast?_of_text? {l : Line} {s : String} (h : l.text? = some s) :
    s.toList.getLast? = some '\n' := by
  cases l with
  | instr i note =>
    obtain ⟨_, -, h⟩ := Option.bind_eq_some_iff.mp h
    cases h
    exact getLast?_newline _
  | label name =>
    cases h
    simp
  | directive | comment =>
    cases h
    exact getLast?_newline _

theorem text?_of_text {l : Line} {s : String} (h : l.text = .ok s) : l.text? = some s := by
  rw [Line.text] at h
  split at h
  next s' hs =>
    cases h
    exact hs
  · cases h

theorem getLast?_prologue_append {texts : List String}
    (h : ∀ s ∈ texts, s.toList.getLast? = some '\n') :
    (prologue ++ String.join texts).toList.getLast? = some '\n' := by
  rcases List.eq_nil_or_concat texts with rfl | ⟨texts, s, rfl⟩
  · decide +kernel
  have hlast := h s (by simp)
  simp only [List.concat_eq_append, String.join_append, String.join_cons, String.toList_append,
    List.getLast?_append, hlast]
  rfl

theorem definesLabel_of_eq {before name : String} (hbefore : before.toList.getLast? = some '\n')
    (behind : List Char) (h : text.toList = before.toList ++ ((name ++ ":\n").toList ++ behind)) :
    DefinesLabel text name := by
  obtain ⟨start, hstart⟩ := List.getLast?_eq_some_iff.mp hbefore
  refine ⟨start, behind, ?_⟩
  simp [h, hstart]

theorem Defined.definesLabel {lines : List Line} {name : String} (hname : Defined lines name)
    (h : programText (lines.map Line.text) = .ok text) : DefinesLabel text name := by
  obtain ⟨texts, htexts, htext⟩ := of_bind h
  cases htext
  rw [mapM_id_eq_ok_iff] at htexts
  have hends : ∀ s ∈ texts, s.toList.getLast? = some '\n' := by
    intro s hs
    have hmem : Except.ok s ∈ lines.map Line.text := htexts ▸ List.mem_map_of_mem hs
    obtain ⟨l, -, hl⟩ := List.mem_map.mp hmem
    exact getLast?_of_text? (text?_of_text hl)
  obtain hlabel | rfl := hname
  · obtain ⟨_, _, rfl⟩ := List.append_of_mem hlabel
    rw [List.map_append, eq_comm, List.map_eq_append_iff] at htexts
    obtain ⟨_, _, rfl, -, hrest⟩ := htexts
    obtain ⟨s, texts2, rfl, hs, -⟩ := List.map_eq_cons_iff.mp hrest
    cases hs
    have hbefore := getLast?_prologue_append fun s hs => hends s (List.mem_append_left _ hs)
    refine definesLabel_of_eq hbefore (String.join texts2 ++ epilogue).toList ?_
    simp only [String.join_append, String.join_cons, String.toList_append, List.append_assoc]
  · have hepilogue : epilogue.toList = ("_malloc" ++ ":\n").toList ++ epilogue.toList.drop 9 := by
      decide +kernel
    refine definesLabel_of_eq (getLast?_prologue_append hends) (epilogue.toList.drop 9) ?_
    rw [← hepilogue, String.toList_append]

end Riscv

namespace Compiler

open Choco IR Riscv Machine Flat List Analysis

variable {literals : Flat.SharedLiterals.Table} {funcs : Nat → Option String} {passes : List Pass}
  {source : String}

/-! ## Passes that succeed -/

theorem of_runPasses {edition : Edition} (h : runPasses edition w passes = .ok w') :
    w.program.verify = .ok () ∧ passes.foldlM (fun w p => p.run edition w) w = .ok w' := by
  obtain ⟨⟨⟩, hverify, hfold⟩ := of_bind h
  refine ⟨mapError_eq_ok_iff.mp hverify, ?_⟩
  clear hverify h
  induction passes generalizing w with
  | nil =>
    cases hfold
    rfl
  | cons p passes ih =>
    obtain ⟨w1, hstep, hrest⟩ := of_bind hfold
    obtain ⟨_, ⟨⟩, hrun, -, hpure⟩ := of_bind₂ hstep
    cases hpure
    exact bind_eq_ok_iff.mpr ⟨w1, mapError_eq_ok_iff.mp hrun, ih hrest⟩

theorem of_compileChunk (h : compileChunk .third passes "riscv" [] source = .ok (text, literals)) :
    ∃ n w, Node.verifyAll [n] = .ok () ∧
      passes.foldlM (fun w p => p.run .third w) { program := .tree [n] } = .ok w ∧
      w.program.assemblyText = .ok text := by
  obtain ⟨n, w, -, hpasses, h2⟩ := of_bind₂ h
  obtain ⟨_, htext, hpure⟩ := of_bind h2
  cases hpure
  obtain ⟨hverify, hrun⟩ := of_runPasses hpasses
  exact ⟨n, w, mapError_eq_ok_iff.mp hverify, hrun, mapError_eq_ok_iff.mp htext⟩

theorem of_onCode {f : Module → Except Fault Module}
    (h : (do return { w with program := ← Pass.onCode f (.code m) }) = Except.ok w') :
    ∃ m', f m = .ok m' ∧ w' = { w with program := .code m' } := by
  obtain ⟨p, hp, hw⟩ := of_bind h
  obtain ⟨m', hf, rfl⟩ := map_eq_ok_iff.mp (mapError_eq_ok_iff.mp hp)
  cases hw
  exact ⟨m', hf, rfl⟩

theorem of_run_analysis {a : Analysis}
    (h : Pass.run .third { program := .tree ns, literals } (.analysis a) = .ok w) :
    ∃ ns', a.run .third ns = .ok ns' ∧ w = { program := .tree ns', literals } := by
  obtain ⟨p, hp, hw⟩ := of_bind h
  cases hw
  obtain ⟨ns', hns, rfl⟩ := map_eq_ok_iff.mp hp
  exact ⟨ns', hns, rfl⟩

theorem of_run_assignTarget (h : assignTarget.run .third ns = .ok ns') : ns' = ns := by
  rw [run] at h
  split at h <;> cases h
  rfl

theorem of_run_names (h : names.run .third ns = .ok ns') : ns' = ns ∧ checkNames ns = .ok () := by
  rw [run] at h
  split at h
  next hcheck =>
    cases h
    exact ⟨rfl, hcheck⟩
  · cases h

theorem of_run_types (h : types.run .third ns = .ok ns') : Typing.checkProgram ns = .ok ns' := by
  rw [run] at h
  split at h
  next hcheck =>
    cases h
    exact hcheck
  · cases h

/-! ## The functions that a program calls -/

/-- The functions that have code when a program is lowered: those of the library, `len`, and those of
the program. -/
def Coded (defs : List Node) (func : String) : Prop :=
  func = "len" ∨ func ∈ labelsOf Runtime.library ∨ DefinesFunction defs func

theorem library_coded (defs : List Node) : Library (Coded defs) where
  input := by
    right; left
    decide +kernel
  print := by
    intro t func h
    right; left
    rw [LibraryCalls.printer?] at h
    split_ifs at h <;> cases h <;> decide +kernel
  concat := by
    right; left
    decide +kernel
  equal := by
    right; left
    decide +kernel

theorem grants_called {stmts : List Node} {o : Env}
    (hverify : Node.verifyAll [.program defs stmts] = .ok ())
    (hnames : checkNames [.program defs stmts] = .ok ())
    (henv : buildEnv [.program defs stmts] = .ok o) : Grants (called (Coded defs)) o := by
  intro f info hlookup
  rcases functions_of_buildEnv hverify henv f info (mem_of_lookup_eq_some hlookup) with hinitial | hdef
  · simp only [Env.initial, mem_cons, not_mem_nil, or_false, Prod.mk.injEq] at hinitial
    obtain ⟨rfl, hinfo⟩ | ⟨rfl, hinfo⟩ | ⟨rfl, hinfo⟩ := hinitial <;> cases hinfo
    · exact ⟨.inl (.inl rfl), fun h => absurd h (by decide)⟩
    · exact ⟨.inr (.inl rfl), fun _ => nofun⟩
    · exact ⟨.inr (.inr rfl), fun _ => nofun⟩
  · refine ⟨.inl (.inr (.inr hdef)), fun hbodiless => ?_⟩
    have hglobals := ((checkNames_eq_ok_iff (Node.orderly_of_verifyAll hverify)).mp hnames).globals
    have hinitial : f ∈ ["print", "len", "input"] := by
      obtain rfl | rfl := hbodiless <;> decide +kernel
    obtain ⟨_, _, _, hdef⟩ := hdef
    exact absurd rfl ((nodup_append.mp hglobals).2.2 f hinitial f
      (mem_flatMap.mpr ⟨_, hdef, mem_singleton_self _⟩))

theorem checked_of_body {o : Env}
    (h : (if ns.isEmpty then pure [] else Typing.checkBody o .bottom ns) = .ok ns') :
    (∀ n' ∈ ns', ∃ n, Typing.checkStmt o .bottom n = .ok n') ∧
      (ns' = [] ∨ ∃ ns, Typing.checkBody o .bottom ns = .ok ns') ∧
      ∀ f, DefinesFunction ns f → DefinesFunction ns' f := by
  split at h
  next hempty =>
    cases h
    rw [isEmpty_iff.mp hempty]
    exact ⟨nofun, .inl rfl, fun _ => id⟩
  · obtain ⟨hfrom, hto⟩ := Typing.mem_of_checkBody h
    refine ⟨fun n' hn' => ?_, .inr ⟨ns, h⟩, ?_⟩
    · obtain ⟨n, -, hn⟩ := hfrom n' hn'
      exact ⟨n, hn⟩
    · rintro f ⟨_, _, _, hf⟩
      obtain ⟨n', hn', hcheck⟩ := hto _ hf
      obtain ⟨_, _, rfl, -⟩ := Typing.of_funcDef hcheck
      exact ⟨_, _, _, hn'⟩

theorem of_checkProgram {n : Node} (h : Typing.checkProgram [n] = .ok ns') :
    ∃ defs stmts o defs' stmts', n = .program defs stmts ∧ buildEnv [n] = .ok o ∧
      ns' = [.program defs' stmts'] ∧ Checked o defs' stmts' ∧
      ∀ f, DefinesFunction defs f → DefinesFunction defs' f := by
  obtain ⟨o, henv, h1⟩ := of_bind h
  split at h1
  next defs stmts rest hn =>
    cases hn
    obtain ⟨defs', hdefs, h2⟩ := of_ite_bind_eq_ok h1
    obtain ⟨stmts', hstmts, h3⟩ := of_ite_bind_eq_ok h2
    cases h3
    obtain ⟨hchecked, -, hfunctions⟩ := checked_of_body hdefs
    exact ⟨defs, stmts, o, defs', stmts', rfl, henv, rfl,
      ⟨hchecked, (checked_of_body hstmts).2.1⟩, hfunctions⟩
  · cases h1

/-! ## The stages of a program -/

/-- The passes that work on the flat level once the library is called. -/
def Pass.optimises : Pass → Bool
  | .shareLiterals | .foldConstants | .deadCode | .forLoops => true
  | _ => false

def stages (middle : List Pass) : List Pass :=
  [.analysis .assignTarget, .analysis .names, .analysis .types, .flatten, .libraryCalls] ++ middle ++
    [.toMachine, .assemble, .layOut]

/-- A program of the flat level calls functions with code only. -/
def Prepared (funcs : Nat → Option String) (defs : List Node) (w : Workspace) : Prop :=
  ∃ m, w.program = .code m ∧ Shares funcs (called (Coded defs)) (Coded defs) m w.literals

theorem exists_prepared {n : Node} (hverify : Node.verifyAll [n] = .ok ())
    (h : [.analysis .assignTarget, .analysis .names, .analysis .types, .flatten,
      .libraryCalls].foldlM (fun w (p : Pass) => p.run .third w) { program := .tree [n] } = .ok w) :
    ∃ funcs defs, Prepared funcs defs w ∧ ∀ f, DefinesFunction defs f → Named funcs f := by
  obtain ⟨_, _, hrun1, hrun2, h⟩ := of_bind₂ h
  obtain ⟨_, _, hrun3, hrun4, h⟩ := of_bind₂ h
  obtain ⟨_, hrun5, h⟩ := of_bind h
  cases h
  obtain ⟨_, htargets, rfl⟩ := of_run_analysis hrun1
  obtain rfl := of_run_assignTarget htargets
  obtain ⟨_, hrunNames, rfl⟩ := of_run_analysis hrun2
  obtain ⟨rfl, hnames⟩ := of_run_names hrunNames
  obtain ⟨_, htypes, rfl⟩ := of_run_analysis hrun3
  obtain ⟨defs, _, o, _, _, rfl, henv, rfl, hchecked, hfunctions⟩ :=
    of_checkProgram (of_run_types htypes)
  obtain ⟨_, hflat, hw4⟩ := of_bind hrun4
  cases hw4
  obtain ⟨m, hm, rfl⟩ := map_eq_ok_iff.mp (mapError_eq_ok_iff.mp hflat)
  obtain ⟨m', hlibrary, rfl⟩ := of_onCode hrun5
  obtain ⟨funcs, L, htidy, hremnants, hnamed⟩ :=
    exists_tidy_ofTree (grants_called hverify hnames henv) hchecked hm
  refine ⟨funcs, defs, ⟨m', rfl, (library_coded defs).run htidy hremnants hlibrary⟩, ?_⟩
  rintro f hf
  obtain ⟨params, returnType, body, hmem⟩ := hfunctions f hf
  exact hnamed f params returnType body hmem

theorem Prepared.run {p : Pass} (hp : p.optimises = true)
    (h : Prepared funcs defs w) (hrun : p.run .third w = .ok w') : Prepared funcs defs w' := by
  obtain ⟨m, hm, hshares⟩ := h
  obtain ⟨_, _⟩ := w
  cases hm
  obtain ⟨L, htidy⟩ := hshares
  cases p with
  | shareLiterals =>
    simp only [Pass.run, Pass.shareLiteralsOf] at hrun
    split at hrun
    next m' literals' hshare =>
      cases hrun
      exact ⟨m', rfl, Shares.run ⟨L, htidy⟩ hshare⟩
    · cases hrun
  | foldConstants =>
    obtain ⟨m', hm', rfl⟩ := of_onCode hrun
    exact ⟨m', rfl, htidy.folding hm'⟩
  | deadCode =>
    obtain ⟨m', hm', rfl⟩ := of_onCode hrun
    exact ⟨m', rfl, htidy.deadCode hm'⟩
  | forLoops =>
    obtain ⟨m', hm', rfl⟩ := of_onCode hrun
    exact ⟨m', rfl, htidy.forLoops (fun _ => .inl rfl) hm'⟩
  | _ => cases hp

theorem lowering_of_tidy {L : Ledger}
    (h : Tidy funcs (called (Coded defs)) literals (fun _ => Coded defs) L m)
    (hnamed : ∀ f, DefinesFunction defs f → Named funcs f) :
    Lowering m.next funcs (Named funcs) m := by
  refine lowering_of_flat (fun o ho => ?_) fun _ => ?_
  · have hregular := (h.each.of_mem_placed ho).of_mem mem_cons_self
    refine ⟨by rw [hregular.flat?]; rfl, ?_⟩
    rw [Fits, hregular.code]
    refine ⟨hregular.below, fun func hcall => ?_, fun func hfunc => ?_⟩
    · obtain hlen | hlibrary | hdefined := hregular.call func hcall
      · exact .inl hlen
      · exact .inr (.inr (.inl hlibrary))
      · exact .inr (.inr (.inr (hnamed func hdefined)))
    · obtain ⟨-, result, hcode⟩ := h.numbers _ _ hfunc
      exact ⟨result, hcode⟩
  · obtain ⟨main, hops, hmain, hstands⟩ := h.housed
    refine ⟨main, hops, .inr hmain, fun func hfunc => (hstands func hfunc).imp_right ?_⟩
    rintro ⟨o, ho, hstand⟩
    exact ⟨o, ho, .inr hstand⟩

def linesOf (p : Program) : List Riscv.Line :=
  match p with
  | .tree _ => []
  | .code m => m.ops.filterMap fun o =>
    match o.code with
    | .line l => some l
    | _ => none

theorem mem_linesOf {l : Riscv.Line} : l ∈ linesOf (.code m) ↔ HasLine m.ops l := by
  rw [linesOf, mem_filterMap]
  refine exists_congr fun o => and_congr_right fun _ => ?_
  cases o.code with
  | line _ => exact ⟨fun h => congrArg _ (Option.some.inj h), fun h => congrArg _ (Opcode.line.inj h)⟩
  | _ => exact ⟨nofun, nofun⟩

theorem of_assemblyText (h : (Program.code m).assemblyText = .ok text) :
    (∀ o ∈ m.ops, ∃ l, o.code = .line l) ∧
      programText ((linesOf (.code m)).map Riscv.Line.text) = .ok text := by
  obtain ⟨_, htexts, -⟩ := of_bind h
  rw [mapM_id_eq_ok_iff] at htexts
  have hwritten : ∀ o ∈ m.ops, ∃ l, o.code = .line l := by
    intro o ho
    obtain ⟨s, -, hs⟩ := mem_map.mp (htexts ▸ mem_map_of_mem ho)
    cases hcode : o.code with
    | line l => exact ⟨l, rfl⟩
    | _ =>
      rw [hcode] at hs
      cases hs
  refine ⟨hwritten, ?_⟩
  rw [← h, linesOf]
  congr 1
  generalize m.ops = ops at hwritten
  induction ops with
  | nil => rfl
  | cons o ops ih =>
    rw [forall_mem_cons] at hwritten
    obtain ⟨l, hl⟩ := hwritten.1
    simp only [filterMap_cons, map_cons, hl]
    rw [← ih hwritten.2]

theorem exists_answered (h : Prepared funcs defs w)
    (hnamed : ∀ f, DefinesFunction defs f → Named funcs f)
    (hrun : [.toMachine, .assemble, .layOut].foldlM (fun w (p : Pass) => p.run .third w) w = .ok w')
    (htext : w'.program.assemblyText = .ok text) :
    ∃ lines : List Riscv.Line, programText (lines.map Riscv.Line.text) = .ok text ∧
      (∀ name, Defined lines name → DefinesLabel text name) ∧
      ∀ l ∈ lines, ∀ t, l.target? = some t → Defined lines t ∨
        ∃ n, t = numbered "_if_expr_after_" n ∧ Defined lines (numbered "_if_after_" n) := by
  obtain ⟨m, hm, L, htidy⟩ := h
  obtain ⟨program, _⟩ := w
  cases hm
  obtain ⟨_, _, hrun1, hrun2, hrun⟩ := of_bind₂ hrun
  obtain ⟨_, hrun3, hrun⟩ := of_bind hrun
  cases hrun
  obtain ⟨_, hmachine, rfl⟩ := of_onCode hrun1
  obtain ⟨_, hassemble, rfl⟩ := of_onCode hrun2
  obtain ⟨_, hlayout, rfl⟩ := of_onCode hrun3
  obtain ⟨hwritten, hprogram⟩ := of_assemblyText htext
  have hanswers := ((lowering_of_tidy htidy hnamed).ofFlat hmachine).answers
    (fun i f hf => (htidy.numbers i f hf).1) hassemble hlayout hwritten
  refine ⟨_, hprogram, fun name hname => hname.definesLabel hprogram, fun l hl t ht => ?_⟩
  obtain ⟨o, ho, hcode⟩ := mem_linesOf.mp hl
  obtain hmalloc | hlabel | ⟨n, hn, hlabel⟩ := hanswers o ho l hcode t ht
  · exact .inl (.inr hmalloc)
  · exact .inl (.inl (mem_linesOf.mpr hlabel))
  · exact .inr ⟨n, hn, .inl (mem_linesOf.mpr hlabel)⟩

theorem leads_of_ofFlat {m' : Module} (h : ∀ o ∈ m.placed, o.flat?.isSome = true ∧ o.id < m.next)
    (hrun : ofFlat m = .ok m') : ∀ o ∈ m'.walk, ∀ b ∈ o.regions, Leads b.ops b.ops := by
  have hlowering : Lowering m.next (fun _ => none) (fun _ => True) m := by
    refine lowering_of_flat (fun o ho => ⟨(h o ho).1, ?_⟩) fun hknown => ?_
    · obtain ⟨code, hflat⟩ := Option.isSome_iff_exists.mp (h o ho).1
      rw [Fits, Op.code_of_flat? hflat]
      exact ⟨(h o ho).2, fun _ _ => .inr (.inr (.inr trivial)), fun _ hf => by cases hf⟩
    · obtain ⟨n, hn⟩ := hknown "" trivial
      cases hn
  intro o ho b hb
  exact (((hlowering.ofFlat hrun).each.ops o ho).blocks b hb).2

/-- Every label to which a line of a compiled program leads is defined in the text of the program, and
every label to which an operation of the machine level leads is placed in the same block or by the
library; but a conditional statement jumps to the label of a conditional expression of its number, and
it is another label that it places. -/
theorem targets_defined {middle : List Pass} (hmiddle : ∀ p ∈ middle, p.optimises = true) :
    (∀ (source text : String) (literals : Flat.SharedLiterals.Table),
      compileChunk .third (stages middle) "riscv" [] source = .ok (text, literals) →
      ∃ lines : List Riscv.Line, programText (lines.map Riscv.Line.text) = .ok text ∧
        (∀ name, Defined lines name → DefinesLabel text name) ∧
        ∀ l ∈ lines, ∀ t, l.target? = some t → Defined lines t ∨
          ∃ n, t = numbered "_if_expr_after_" n ∧ Defined lines (numbered "_if_after_" n)) ∧
    ∀ m m' : Module, (∀ o ∈ m.placed, o.flat?.isSome = true ∧ o.id < m.next) →
      ofFlat m = .ok m' → ∀ o ∈ m'.walk, ∀ b ∈ o.regions, ∀ x ∈ b.ops, ∀ t, x.target? = some t →
        t ∈ labelsOf Runtime.library ∨ Placed b.ops t ∨
          ∃ n, t = numbered "_if_expr_after_" n ∧ Placed b.ops (numbered "_if_after_" n) := by
  refine ⟨fun source text literals h => ?_, fun m m' hflat hrun => leads_of_ofFlat hflat hrun⟩
  obtain ⟨n, w, hverify, hrun, htext⟩ := of_compileChunk h
  rw [stages, List.foldlM_append, bind_eq_ok_iff] at hrun
  obtain ⟨w₂, hfront, hback⟩ := hrun
  rw [List.foldlM_append, bind_eq_ok_iff] at hfront
  obtain ⟨w₁, hfront, hoptimise⟩ := hfront
  obtain ⟨funcs, defs, hprepared, hnamed⟩ := exists_prepared hverify hfront
  have hkept := foldlM_kept (P := Prepared funcs defs)
    (fun p hp _ _ hs => hs.run (hmiddle p hp)) hprepared hoptimise
  exact exists_answered hkept hnamed hback htext

def allStages : List Pass :=
  stages [.shareLiterals, .foldConstants, .deadCode, .forLoops]

example : Pass.select .third "all" = .ok allStages := rfl

def looping : String := "x: bool = True\nwhile x:\n    print(x and x)\n"

/-- The labels of a program with a loop. -/
theorem targets_defined_looping :
    ∃ text literals, compileChunk .third allStages "riscv" [] looping = .ok (text, literals) ∧
      ∃ lines : List Riscv.Line, programText (lines.map Riscv.Line.text) = .ok text ∧
        (∀ name, Defined lines name → DefinesLabel text name) ∧
        ∀ l ∈ lines, ∀ t, l.target? = some t → Defined lines t ∨
          ∃ n, t = numbered "_if_expr_after_" n ∧ Defined lines (numbered "_if_after_" n) := by
  have hok : (compileChunk .third allStages "riscv" [] looping).isOk = true := by decide +kernel
  cases hcompile : compileChunk .third allStages "riscv" [] looping with
  | error e =>
    rw [hcompile] at hok
    cases hok
  | ok r => exact ⟨r.1, r.2, rfl, (targets_defined (by decide)).1 looping r.1 r.2 hcompile⟩

def conditional : String := "x: bool = True\nif x:\n    print(1)\n"

def compiled (source : String) : Except Failure Workspace := do
  let n ← (parseProgram .third source).mapError fun e => .parsing e source
  runPasses .third { program := .tree [n] } allStages

theorem compileChunk_of_compiled (h : compiled source = .ok w)
    (htext : w.program.assemblyText = .ok text) :
    compileChunk .third allStages "riscv" [] source = .ok (text, w.literals) := by
  obtain ⟨n, hn, hw⟩ := of_bind h
  have htarget : targetText .third "riscv" w.program = .ok text := by
    rw [targetText, htext]
    rfl
  rw [compileChunk, hn]
  show (runPasses .third { program := .tree [n] } allStages >>= fun w => _) = _
  rw [hw]
  show (targetText .third "riscv" w.program >>= fun text => _) = _
  rw [htarget]
  rfl

/-- A program has a text, and leads to a label that it does not define. -/
def misses (name : String) (p : Program) : Bool :=
  p.assemblyText.isOk && (linesOf p).any (fun l => l.target? == some name) &&
    !decide (Defined (linesOf p) name)

/-- The conditional statement jumps to a label that is not defined. -/
theorem undefined_target_conditional :
    ∃ text literals, compileChunk .third allStages "riscv" [] conditional = .ok (text, literals) ∧
      ∃ lines : List Riscv.Line, programText (lines.map Riscv.Line.text) = .ok text ∧
        ∃ l ∈ lines, l.target? = some "_if_expr_after_0" ∧ ¬ Defined lines "_if_expr_after_0" := by
  have hcheck : ((compiled conditional).toOption.map Workspace.program).any
      (misses "_if_expr_after_0") = true := by
    decide +kernel
  cases hcompiled : compiled conditional with
  | error e =>
    rw [hcompiled] at hcheck
    cases hcheck
  | ok w =>
    rw [hcompiled] at hcheck
    obtain ⟨program, literals⟩ := w
    simp only [Except.toOption, Option.map_some, Option.any_some, misses, Bool.and_eq_true,
      List.any_eq_true, beq_iff_eq, Bool.not_eq_true', decide_eq_false_iff_not] at hcheck
    obtain ⟨⟨hok, l, hl, htarget⟩, hundefined⟩ := hcheck
    cases program with
    | tree ns => cases hl
    | code m =>
      cases htext : (Program.code m).assemblyText with
      | error f =>
        rw [htext] at hok
        cases hok
      | ok text =>
        exact ⟨text, literals, compileChunk_of_compiled hcompiled htext, _,
          (of_assemblyText htext).2, l, hl, htarget, hundefined⟩

end Compiler

end Practicum
