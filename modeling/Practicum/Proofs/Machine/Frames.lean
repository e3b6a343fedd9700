import Practicum.Proofs.Machine.Spilling

/-!
# The frame of a function

The lines of a function make room for its frame, stand for its operations, one after the other, and
give the frame back.
-/

namespace Practicum.Machine

open IR Riscv Assembly List Core

/-! ## The lines of a function -/

def line? (o : Op) : Option Line :=
  match o.code with
  | .line l => some l
  | _ => none

def linesOf (ops : List Op) : List Line :=
  ops.filterMap line?

def linesFor (a : Access) (func : String) (o : Op) : List Line :=
  match lower a func o with
  | .ok (some ls) => ls
  | _ => []

/-- The lines that give the frame of a function back, behind the label at its end. -/
def closing (a : Access) : List Line :=
  addi .sp .sp a.own.slotBytes "Free stack space reserved for spilled registers" ::
    (if a.own.allocs.isEmpty then []
    else [addi .sp .sp a.own.allocBytes "Free stack space reserved for stack-allocated memory"])
  ++ [lw .ra .sp 0 "Store return address", addi .sp .sp 4 "Free space for ra"]

theorem footer_eq {a : Access} {func : String} : footer a func =
      [blank, remark "Footer Ops", .label (returnLabel func)] ++ closing a := by
  simp [footer, closing, label, returnLabel]

/-- The lines of a function: first those that make its frame, then those of its operations, then
those that give the frame back, and the last lines. -/
structure Written (a : Access) (func : String) (b : Block) (first last lines : List Line) :
    Prop where
  header : header a b.args = .ok first
  lines : lines = first ++ b.ops.flatMap (linesFor a func) ++ footer a func ++ last
  total : ∀ o ∈ b.ops, ∃ ls?, lower a func o = .ok ls?

variable {a : Access} {func : String} {first ls : List Line}

section
variable {b b' : Block} {last : List Line} {n n' : Nat} {ops : List Op}

theorem linesOf_of_holds (h : Forall₂ Holds ls ops) : linesOf ops = ls := by
  induction h with
  | nil => rfl
  | cons head _ ih => rw [linesOf, filterMap_cons, ← linesOf, ih, line?, head.1]

theorem linesOf_flatten {source : List Op} {made : List (List Op)}
    (hbody : ∀ o ∈ source, line? o = none) (h : Forall₂ (TurnsInto a func) source made) :
    linesOf made.flatten = source.flatMap (linesFor a func) := by
  induction h with
  | nil => rfl
  | @cons o ops source made head _ ih =>
    obtain ⟨hline, hbody⟩ := forall_mem_cons.mp hbody
    rw [flatten_cons, linesOf, filterMap_append, ← linesOf, ← linesOf, ih hbody, flatMap_cons]
    congr 1
    rw [TurnsInto] at head
    rw [linesFor]
    split at head
    next hlower =>
      rw [hlower]
      exact linesOf_of_holds head
    next hlower =>
      rw [head, hlower]
      simp [linesOf, hline]
    · exact head.elim

theorem written_of_assembleBody (hbody : ∀ o ∈ b.ops, line? o = none)
    (h : (assembleBody a func b last).run n = .ok (b', n')) :
    ∃ first, Written a func b first last (linesOf b'.ops) := by
  obtain ⟨first, before, made, after, hlaid⟩ := laid_of_assembleBody h
  refine ⟨first, hlaid.header, ?_, fun o ho => hlaid.total ho⟩
  rw [hlaid.ops, linesOf, filterMap_append, filterMap_append, ← linesOf, ← linesOf, ← linesOf,
    linesOf_of_holds hlaid.before, linesOf_of_holds hlaid.after, linesOf_flatten hbody hlaid.made,
    append_assoc _ (footer a func)]

end

/-! ## Entering and leaving -/

/-- What holds when a function is entered: the stack pointer is above the frame that it will have,
its arguments are in registers, and the values of main that it knows are in their slots. -/
structure Enters (a : Access) (sp tp : Word) (args : List Val) (words : List Word)
    (globals : Values) (c : Core) : Prop where
  stack : c.get .sp = sp + wordOf (a.top + 4)
  ofMain : a.main = none → tp = sp
  ofOther : a.main ≠ none → c.get .tp = tp
  apart : a.Apart sp tp
  length : words.length = args.length
  registers : InRegisters 0 words c
  globals : ∀ id w, globals id = some w → a.own.slots.idxOf? id = none ∧
    ∀ x, a.address? sp tp id = some x → c.memory.word x = w

section
variable {sp tp ra : Word} {args : List Val} {words : List Word} {values : Values} {c c' : Core}
  {m : Memory}

theorem top_eq (a : Access) : (a.top : Int) = a.own.slotBytes + a.own.allocBytes := by
  simp only [Access.top, Frame.slotBytes, Frame.allocBytes]
  push_cast
  omega

theorem add_wordOf_zero (x : Word) : x + wordOf 0 = x :=
  BitVec.add_zero x

/-- Only the stack pointer is changed. -/
structure Shifted (x : Word) (c c' : Core) : Prop where
  stack : c'.get .sp = x
  other : ∀ q, q ≠ .sp → c'.get q = c.get q
  memory : c'.memory = c.memory

theorem Shifted.trans {x y : Word} {c'' : Core} (h : Shifted x c c') (h' : Shifted y c' c'') :
    Shifted y c c'' where
  stack := h'.stack
  other q hq := (h'.other q hq).trans (h.other q hq)
  memory := h'.memory.trans h.memory

theorem carries_shift {x : Word} {n d : Int} (note : String) (hsp : c.get .sp = x + wordOf n)
    (hd : encodable d) :
    ∃ c', Carries [addi .sp .sp d note] c c' ∧ Shifted (x + wordOf (n + d)) c c' := by
  refine ⟨_, .single (move?_addi hd), ?_, fun q hq => get_set_of_ne hq, rfl⟩
  rw [get_set_self, hsp, wordOf_add, BitVec.add_assoc]

theorem carries_shift_allocs {x : Word} {n d : Int} (note : String)
    (hsp : c.get .sp = x + wordOf n) (hd : encodable d) (hzero : a.own.allocBytes = 0 → d = 0) :
    ∃ c', Carries (if a.own.allocs.isEmpty then [] else [addi .sp .sp d note]) c c' ∧
      Shifted (x + wordOf (n + d)) c c' := by
  split
  next hempty =>
    have hd : d = 0 := hzero (by rw [Frame.allocBytes, isEmpty_iff.mp hempty]; rfl)
    exact ⟨c, .nil c, by rw [hsp, hd, Int.add_zero], fun q _ => rfl, rfl⟩
  · exact carries_shift note hsp hd

theorem carries_reserve (hfits : a.Fits) (hsp : c.get .sp = sp + wordOf (a.top + 4)) :
    ∃ c', Carries ([addi .sp .sp (-4) "Reserve space for ra", sw .ra .sp 0 "Store return address",
        addi .sp .sp (-a.own.slotBytes) "Reserve stack space for spilled registers"]
        ++ if a.own.allocs.isEmpty then []
          else [addi .sp .sp (-a.own.allocBytes) "Reserve stack space for stack-allocated memory"])
        c c' ∧
      Shifted sp { c with memory := c.memory.write (sp + wordOf a.top) 4 (c.get .ra) } c' := by
  have hslots := encodable_iff.mp hfits.slots
  have hmemory := encodable_iff.mp hfits.memory
  have hslotBytes : 0 ≤ a.own.slotBytes := by unfold Frame.slotBytes; omega
  have hallocBytes : 0 ≤ a.own.allocBytes := by unfold Frame.allocBytes; omega
  obtain ⟨c1, hcarries1, h1⟩ := carries_shift "Reserve space for ra" hsp (d := -4) (by decide)
  rw [Int.add_neg_cancel_right] at h1
  have hstore : (sw .ra .sp 0 "Store return address").move? c1 =
      some { c1 with memory := c.memory.write (sp + wordOf a.top) 4 (c.get .ra) } := by
    rw [move?_sw (by decide), h1.stack, h1.other .ra (by decide), h1.memory, add_wordOf_zero]
  obtain ⟨_, hcarries3, h3⟩ := carries_shift
    (c := { c1 with memory := c.memory.write (sp + wordOf a.top) 4 (c.get .ra) })
    "Reserve stack space for spilled registers" h1.stack (d := -a.own.slotBytes)
    (encodable_iff.mpr (by omega))
  obtain ⟨c4, hcarries4, h4⟩ := carries_shift_allocs (a := a)
    "Reserve stack space for stack-allocated memory" h3.stack (d := -a.own.allocBytes)
    (encodable_iff.mpr (by omega)) (by omega)
  have hend : (a.top : Int) + -a.own.slotBytes + -a.own.allocBytes = 0 := by
    rw [top_eq]
    omega
  rw [hend, add_wordOf_zero] at h4
  refine ⟨c4, (hcarries1.append (.cons hstore hcarries3)).append hcarries4, h4.stack, fun q hq => ?_,
    (h3.trans h4).memory⟩
  exact ((h3.trans h4).other q hq).trans (h1.other q hq)

theorem carries_closing (hfits : a.Fits) (h : Mirrors a sp tp ra values m c) :
    ∃ c', Carries (closing a) c c' ∧ c'.get .sp = sp + wordOf (a.top + 4) ∧ c'.get .ra = ra ∧
      c'.get .a0 = c.get .a0 ∧ c'.get .tp = tp ∧ c'.memory = c.memory := by
  obtain ⟨_, hcarries1, h1⟩ := carries_shift
    "Free stack space reserved for spilled registers" (n := 0)
    (h.ownPointer.trans (add_wordOf_zero sp).symm) hfits.slots
  obtain ⟨c2, hcarries2, h2⟩ := carries_shift_allocs (a := a)
    "Free stack space reserved for stack-allocated memory" h1.stack hfits.memory id
  rw [Int.zero_add, ← top_eq] at h2
  have h12 := h1.trans h2
  have hload : (lw .ra .sp 0 "Store return address").move? c2 = some (c2.set .ra ra) := by
    rw [move?_lw (by decide), h2.stack, h12.memory, add_wordOf_zero, h.saved]
  obtain ⟨c4, hcarries4, h4⟩ := carries_shift (c := c2.set .ra ra) "Free space for ra"
    ((get_set_of_ne).trans h2.stack) (d := 4) (by decide)
  have hother (q : Register) (hsp : q ≠ .sp) (hra : q ≠ .ra) : c4.get q = c.get q := by
    rw [h4.other q hsp, get_set_of_ne hra, h12.other q hsp]
  refine ⟨c4, (hcarries1.append hcarries2).append (.cons hload hcarries4), h4.stack, ?_,
    hother .a0 (by decide) (by decide), (hother .tp (by decide) (by decide)).trans h.mainPointer,
    h4.memory.trans h12.memory⟩
  rw [h4.other .ra (by decide), get_set_self]

theorem carries_header (hfits : a.Fits) (hfirst : header a args = .ok first) {globals : Values}
    (h : Enters a sp tp args words globals c) : ∃ c', Carries first c c' ∧
      Mirrors a sp tp (c.get .ra) (globals.bind args words) c.memory c' := by
  obtain ⟨_, hspills, hfirst⟩ := of_bind hfirst
  cases hfirst
  obtain ⟨c1, hcarries1, h1⟩ := carries_reserve hfits h.stack
  obtain ⟨c2, hcarries2, hsp, htp, hother, hmemory⟩ : ∃ c2,
      Carries (if a.main.isNone then [mv .tp .sp "Move main stack pointer to special register"]
        else []) c1 c2 ∧ c2.get .sp = sp ∧ c2.get .tp = tp ∧
      (∀ q, q ≠ .sp → q ≠ .tp → c2.get q = c.get q) ∧ c2.memory = c1.memory := by
    split
    next hnone =>
      refine ⟨c1.set .tp (c1.get .sp), .single rfl, ?_, ?_, fun q hsp htp => ?_, rfl⟩
      · rw [get_set_of_ne, h1.stack]
      · rw [get_set_self, h1.stack, h.ofMain (Option.isNone_iff_eq_none.mp hnone)]
      · rw [get_set_of_ne htp]
        exact h1.other q hsp
    next hsome =>
      refine ⟨c1, .nil c1, h1.stack, ?_, fun q hsp _ => h1.other q hsp, rfl⟩
      rw [← h.ofOther fun hnone => hsome (by rw [hnone]; rfl)]
      exact h1.other .tp (by decide)
  have hmirrors : Mirrors a sp tp (c.get .ra) globals c.memory c2 := by
    refine ⟨hsp, htp, fun id w x hw hx => ?_, fun b hb => ?_, ?_⟩
    · rw [← (h.globals id w hw).2 x hx, hmemory, h1.memory]
      exact Memory.word_congr fun b hb => Memory.write_of_not_covers fun hcovers =>
        not_covers_top hfits h.apart hx hb hcovers
    · rw [hmemory, h1.memory]
      refine Memory.write_of_not_covers fun hcovers => ?_
      simp [Access.reserves, hcovers] at hb
    · rw [hmemory, h1.memory]
      exact Memory.word_write
  have hregisters : InRegisters 0 words c2 := by
    intro j w hw
    obtain ⟨q, hq, hget⟩ := h.registers j w hw
    obtain ⟨-, hsp, htp⟩ := ne_of_argument? hq
    exact ⟨q, hq, (hother q hsp.symm htp.symm).trans hget⟩
  obtain ⟨c3, hcarries3, hmirrors3⟩ := hmirrors.spillArgs hfits h.apart hspills h.length hregisters
  exact ⟨c3, (hcarries1.append hcarries2).append hcarries3, hmirrors3⟩

end

/-! ## Where labels stand -/

section
variable {name : String} {l : Line} {o : Op}

theorem unlabelled_of_closing : ∀ l ∈ closing a, Unlabelled l := by
  simp only [closing, forall_mem_append, forall_mem_cons]
  refine ⟨⟨by simp [Unlabelled, addi, instr], ?_⟩, by simp [Unlabelled, lw, addi, instr]⟩
  split <;> simp [Unlabelled, addi, instr]

theorem lower_of_label (hcode : o.machine? = some (.label name)) (hresults : o.results = [])
    (h : lower a func o = .ok (some ls)) :
    ∃ before, ls = before ++ [.label name] ∧ .label name ∉ before := by
  obtain ⟨_, hop⟩ := Op.code_of_machine? hcode
  rw [lower, hop] at h
  obtain ⟨loads, _, hloads, hspills, h⟩ := of_bind₂ h
  rw [hresults] at hspills
  cases hspills
  cases h
  refine ⟨[blank, remark o.code.name] ++ loads, by simp [hop], fun hmem => ?_⟩
  obtain hmem | hmem := mem_append.mp hmem
  · simp [blank, remark] at hmem
  · obtain ⟨_, hfetch⟩ := mem_of_mapM_eq_ok hloads _ hmem
    exact absurd rfl ((idle_of_fetch hfetch).unlabelled name)

end

end Practicum.Machine
