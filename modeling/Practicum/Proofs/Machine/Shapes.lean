import Mathlib.Data.List.Nodup
import Practicum.Proofs.Machine.Lowering

/-!
# The shape of code

The code for an operation of the flat level stands around the blocks of the operation. It takes new
numbers, among them that of its value, and places labels whose names tell the kind of the operation
and a number, which no other operation of the kind gets.
-/

namespace Practicum.Machine

open IR Riscv Flat Option

/-!
## Code under changes of the program

What is put in the place of an operation of the flat level depends on its operands and its blocks
only. A change of the program that works on new operations by renaming their operands, and on the
blocks in some way, therefore gives the code that the changed operation would have got.
-/

/-- A change of lists of operations that goes on inside new operations of the machine level and
renames their operands; new values keep their names. -/
structure Commutes (least : Nat) (F : List Op → List Op) (σ : Val → Val) : Prop where
  nil : F [] = []
  append : ∀ xs ys, F (xs ++ ys) = F xs ++ F ys
  made : ∀ {id code note operands results bs}, least ≤ id →
    F [.mk id (.machine code note) operands results bs] =
      [.mk id (.machine code note) (operands.map σ) results (bs.map fun b => .mk b.args (F b.ops))]
  fresh : ∀ {v : Val}, least ≤ v.id → σ v = v

section
variable {least : Nat} {F : List Op → List Op} {σ : Val → Val}

namespace Commutes

variable (hF : Commutes least F σ)
include hF

theorem transports : Transports least (fun _ => True) F σ :=
  ⟨hF.nil, hF.append, fun hid _ => hF.made hid, hF.fresh⟩

theorem step (code : MachineCode) {vs vs' : List Val} (hvs : vs' = vs.map σ) :
    Mirrored least (Becomes F) (step code vs) (step code vs') := by
  subst hvs
  exact fun n hn => ⟨Nat.le_succ_of_le hn, rfl, hF.made hn⟩

theorem cons {id : Nat} {code : MachineCode} {note : Option String} {operands results : List Val}
    {os : List Op} (hid : least ≤ id) : F (.mk id (.machine code note) operands results [] :: os) =
      .mk id (.machine code note) (operands.map σ) results [] :: F os := by
  rw [← List.singleton_append, hF.append, hF.made hid]
  rfl

theorem reg {n : Nat} (hn : least ≤ n) : σ (reg n) = reg n :=
  hF.fresh hn

theorem branch (k : Nat) (cond : Val) (yes no : List Op) :
    Mirrored least (fun os os' => F os = os') (branch k cond yes no)
      (branch k (σ cond) (F yes) (F no)) := by
  intro n hn
  rw [run_branch, run_branch]
  refine ⟨by omega, rfl, ?_⟩
  simp (disch := omega) only [hF.append, hF.cons, hF.nil, hF.reg, List.map]

theorem lazyOperator (after : String) (settling : Int) (lhs rhs : List Op) (l r : Val) :
    Mirrored least (Codes F) (lazyOperator after settling lhs l rhs r)
      (lazyOperator after settling (F lhs) (σ l) (F rhs) (σ r)) := by
  intro n hn
  rw [run_lazyOperator, run_lazyOperator]
  refine ⟨by omega, rfl, ?_, rfl⟩
  simp (disch := omega) only [hF.append, hF.cons, hF.nil, hF.reg, List.map]

theorem choice (k : Nat) (cond : Val) (yes no : List Op) (a b : Val) :
    Mirrored least (Codes F) (choice k cond yes a no b)
      (choice k (σ cond) (F yes) (σ a) (F no) (σ b)) := by
  intro n hn
  rw [run_choice, run_choice]
  refine ⟨by omega, rfl, ?_, rfl⟩
  simp (disch := omega) only [hF.append, hF.cons, hF.nil, hF.reg, List.map]

theorem loop (k : Nat) (cond body : List Op) (v : Val) :
    Mirrored least (fun os os' => F os = os') (loop k cond v body)
      (loop k (F cond) (σ v) (F body)) := by
  intro n hn
  rw [run_loop, run_loop]
  refine ⟨by omega, rfl, ?_⟩
  simp (disch := omega) only [hF.append, hF.cons, hF.nil, hF.reg, List.map]

end Commutes

end

/-! ## What one operation is lowered to -/

theorem emission_mirrored {least label : Nat} {F : List Op → List Op} {σ : Val → Val}
    (hF : Commutes least F σ) {code : FlatCode} {o o' : Op} {yields yields' : Nat → Option Val}
    (hoperands : o'.operands = o.operands.map σ) (hresults : o'.results = o.results)
    (hregions : o'.regions = o.regions.map fun b => .mk b.args (F b.ops))
    (hyields : ∀ k, yields' k = (yields k).map σ) {e : Emit Code}
    (he : emission label code o yields = some e) :
    ∃ e', emission label code o' yields' = some e' ∧ Mirrored least (Codes F) e e' := by
  have hops (k : Nat) : o'.regionOps k = F (o.regionOps k) := Op.regionOps_of_map hF.nil hregions k
  have hargs : argsOf o' = argsOf o := by
    rw [argsOf, hregions, List.head?_map, map_map]
    rfl
  unfold emission at he ⊢
  rw [hoperands, hresults, hops 0, hops 1, hargs, hyields 0, hyields 1]
  generalize o.operands = operands at he ⊢
  split at he
  · cases he
    exact ⟨_, rfl, hF.transports.literal _⟩
  next func operands =>
    split at he
    next hlen =>
      obtain ⟨v, hv, rfl⟩ := map_eq_some_iff.mp he
      refine ⟨_, ?_, hF.transports.length v⟩
      rw [if_pos hlen, List.head?_map, hv]
      rfl
    next hlen =>
      split at he
      next hquiet =>
        cases he
        refine ⟨_, (if_neg hlen).trans (if_pos hquiet), ?_⟩
        exact hF.transports.only (hF.step _ rfl)
      next hquiet =>
        cases he
        exact ⟨_, (if_neg hlen).trans (if_neg hquiet),
          hF.transports.single (hF.transports.callValue (.inr (.inr trivial)) rfl)⟩
  · exact hF.transports.unary he
  · exact hF.transports.binary he
  · cases he
    exact ⟨_, rfl, hF.transports.only (hF.transports.storeAt _ rfl rfl)⟩
  · cases he
    exact ⟨_, rfl, hF.transports.single (hF.transports.loadAt _ rfl)⟩
  · cases he
    exact ⟨_, rfl, hF.transports.single hF.transports.alloc⟩
  · cases he
    exact ⟨_, rfl, (hF.branch _ _ _ _).bind fun _ _ h => .pure ⟨h, rfl⟩⟩
  · obtain ⟨l, r, hl, hr, he⟩ := of_some_bind₂ he
    rw [hl, hr]
    split at he
    next hand =>
      cases he
      exact ⟨_, if_pos hand, hF.lazyOperator _ _ _ _ _ _⟩
    next hand =>
      split at he
      next hor =>
        cases he
        exact ⟨_, (if_neg hand).trans (if_pos hor), hF.lazyOperator _ _ _ _ _ _⟩
      · cases he
  · obtain ⟨a, b, ha, hb, he⟩ := of_some_bind₂ he
    cases he
    rw [ha, hb]
    exact ⟨_, rfl, hF.choice _ _ _ _ _ _⟩
  · obtain ⟨v, hv, he⟩ := bind_eq_some_iff.mp he
    cases he
    rw [hv]
    exact ⟨_, rfl, (hF.loop _ _ _ _).bind fun _ _ h => .pure ⟨h, rfl⟩⟩
  · cases he
    exact ⟨_, rfl, hF.transports.list rfl⟩
  · cases he
    exact ⟨_, rfl, hF.transports.getAddress _ _⟩
  · cases he
    exact ⟨_, rfl, hF.transports.indexString _ _⟩
  · cases he
    exact ⟨_, rfl, fun n hn => ⟨Nat.le_succ_of_le hn, rfl, hF.made hn, rfl⟩⟩
  · cases he
    exact ⟨_, rfl, hF.transports.only (hF.step _ rfl)⟩
  · cases he

/-! ## The shape of the code for one operation -/

open List Nat

theorem placedLabels_append (xs ys : List Op) :
    placedLabels (xs ++ ys) = placedLabels xs ++ placedLabels ys :=
  filterMap_append

theorem placedLabels_of_straight {least : Nat} {known : String → Prop} {ops : List Op}
    (h : Straight least known ops) : placedLabels ops = [] := by
  refine filterMap_eq_nil_iff.mpr fun o ho => ?_
  obtain ⟨code, hmade, hsober⟩ := h o ho
  rw [hmade.machine?]
  cases code with
  | label name => exact absurd rfl (hsober.label name)
  | _ => rfl

/-- New operations, which place some labels, stand before, between and behind two blocks. -/
def Around (n : Nat) (own : List String) (first second ops : List Op) : Prop :=
  ∃ before between behind, ops = before ++ first ++ between ++ second ++ behind ∧
    (∀ x ∈ before ++ between ++ behind, ∃ code, Made n code x) ∧
    placedLabels before ++ placedLabels between ++ placedLabels behind = own

variable {code : FlatCode}

section
variable {label n : Nat} {o : Op} {yields : Nat → Option Val} {e : Emit Code} {c : Code × Nat}
  {op : String}

theorem ownLabels_of_not_nests (hcode : nests code = false) : ownLabels label code = [] := by
  cases code <;> simp [nests, ownLabels, stems] at hcode ⊢

theorem emission_around (hfunc : ∀ f t, code ≠ .funcDef f t)
    (hregions : nests code = false → o.regions = []) (he : emission label code o yields = some e) :
    Around n (ownLabels label code) (o.regionOps 0) (o.regionOps 1) (e.run n).1.ops := by
  cases hcode : nests code with
  | false =>
    have hemits : EmitsStraight n (fun _ => True) e :=
      emission_straight hcode (fun _ _ => .inr (.inr (.inr trivial))) he
    have hstraight := (hemits n (Nat.le_refl n)).2
    have hops (k : Nat) : o.regionOps k = [] := by
      rw [Op.regionOps, hregions hcode, drop_nil]
      rfl
    refine ⟨(e.run n).1.ops, [], [], by simp [hops], fun x hx => ?_, ?_⟩
    · obtain ⟨c, hc, -⟩ := hstraight x (by simpa using hx)
      exact ⟨c, hc⟩
    · rw [placedLabels_of_straight hstraight, ownLabels_of_not_nests hcode]
      rfl
  | true =>
    obtain ⟨-, before, between, behind, hops, hnew, hown⟩ :=
      emission_surrounds hcode hfunc he n (Nat.le_refl n)
    refine ⟨before, between, behind, hops, fun x hx => ?_, hown⟩
    obtain ⟨c, hc, -⟩ := (hnew x hx).made
    exact ⟨c, hc⟩

/-- The numbers that code takes, and that of its value among them. -/
def Bounded (n : Nat) (c : Code × Nat) : Prop :=
  n ≤ c.2 ∧ ∀ v, c.1.value = some v → n ≤ v.id ∧ v.id < c.2

/-- The value of code is the result of an operation in it. -/
def Defines (c : Code) : Prop :=
  ∃ v, c.value = some v ∧ ∃ x ∈ c.ops, v ∈ x.results

/-- Code is bounded, and has a value if it has to give one. -/
def Emitted (given : Prop) (n : Nat) (c : Code × Nat) : Prop :=
  Bounded n c ∧ (given → Defines c.1)

section
variable {given : Prop}

theorem Emitted.of_mem {x : Op} (k more : Nat) (hx : x ∈ c.1.ops) (hresult : x.results = [reg (n + k)])
    (h : (c.1.value, c.2) = (some (reg (n + k)), n + k + (more + 1))) : Emitted given n c := by
  obtain ⟨hvalue, hnext⟩ := Prod.mk.inj h
  refine ⟨⟨by omega, ?_⟩, fun _ => ⟨_, hvalue, x, hx, hresult ▸ mem_singleton_self _⟩⟩
  rw [hvalue, hnext]
  rintro _ ⟨⟩
  exact ⟨Nat.le_add_right n k, Nat.lt_add_of_pos_right (Nat.succ_pos more)⟩

theorem Emitted.at (k more i : Nat) (hx : c.1.ops[i]?.map Op.results = some [reg (n + k)])
    (h : (c.1.value, c.2) = (some (reg (n + k)), n + k + (more + 1))) : Emitted given n c := by
  obtain ⟨x, hx, hresult⟩ := map_eq_some_iff.mp hx
  exact .of_mem k more (mem_of_getElem? hx) hresult h

theorem Emitted.silent (size : Nat) (hquiet : ¬given) (h : (c.1.value, c.2) = (none, n + size)) :
    Emitted given n c := by
  obtain ⟨hvalue, hnext⟩ := Prod.mk.inj h
  refine ⟨?_, fun hgiven => absurd hgiven hquiet⟩
  rw [Bounded, hvalue, hnext]
  exact ⟨le_add_right n size, nofun⟩

theorem next_storeElems (a : Val) (vs : List Val) (k n : Nat) :
    ((storeElems a k vs).run n).2 = n + vs.length := by
  induction vs generalizing k n with
  | nil => rfl
  | cons v vs ih =>
    refine (ih (k + 1) (n + 1)).trans ?_
    rw [length_cons]
    omega

theorem next_storeChars (a : Val) (cs : List Char) (k n : Nat) :
    ((storeChars a k cs).run n).2 = n + 3 * cs.length := by
  induction cs generalizing k n with
  | nil => rfl
  | cons c cs ih =>
    refine (ih (k + 1) (n + 3)).trans ?_
    rw [length_cons]
    omega

theorem next_list (vs : List Val) (n : Nat) : ((list vs).run n).2 = n + 7 + vs.length :=
  next_storeElems _ vs 0 (n + 7)

theorem next_string (s : String) (n : Nat) :
    ((literal (.str s)).run n).2 = n + 7 + 3 * s.length := by
  rw [← String.length_toList]
  exact next_storeChars _ s.toList 0 (n + 7)

theorem emitted_literal (v : Choco.Literal) : Emitted given n ((literal v).run n) := by
  cases v with
  | str s =>
    exact .at 4 (2 + 3 * s.length) 2 rfl (Prod.ext rfl ((next_string s n).trans (by omega)))
  | _ => exact .at 0 1 0 rfl rfl

theorem emitted_unary {v : Val} (he : unary op v = some e) : Emitted given n (e.run n) := by
  unfold unary at he
  split at he
  all_goals cases he
  · exact .at 0 1 0 rfl rfl
  · exact .at 2 1 1 rfl rfl

theorem emitted_binary {a b : Val} (he : binary op a b = some e) : Emitted given n (e.run n) := by
  unfold binary at he
  split at he
  all_goals cases he
  iterate 3
    · exact .at 0 1 0 rfl rfl
  · exact .at 3 1 2 rfl rfl
  · exact .at 3 1 2 rfl rfl
  · exact .at 0 1 0 rfl rfl
  · exact .at 0 1 0 rfl rfl
  iterate 3
    · exact .at 2 1 1 rfl rfl
  · exact .at 4 1 2 rfl rfl
  · exact .at 2 1 1 rfl rfl

theorem emitted_lazyOperator {after : String} {settling : Int} {lhs rhs : List Op} {l r : Val} :
    Emitted given n ((lazyOperator after settling lhs l rhs r).run n) := by
  rw [run_lazyOperator]
  exact .of_mem (x := giving (n + 8) (.load .lw (word 0)) [reg n]) 8 1 (by simp) rfl rfl

end

/-- An operation of the flat level has a value, and is lowered. -/
def gives : FlatCode → Bool
  | .literal _ | .call _ | .unary _ | .binary _ | .load | .alloc _ | .choice | .list | .getAddress
  | .indexString => true
  | .lazyBinary op => (settling? op).isSome
  | _ => false

theorem emission_emitted (he : emission label code o yields = some e) :
    Emitted (gives code = true ∧ o.results ≠ []) n (e.run n) := by
  unfold emission at he
  split at he
  · cases he
    exact emitted_literal _
  · split at he
    · obtain ⟨v, -, rfl⟩ := map_eq_some_iff.mp he
      exact .at 3 1 2 rfl rfl
    split at he
    all_goals cases he
    next hquiet => exact .silent 1 (fun h => h.2 (isEmpty_iff.mp hquiet)) rfl
    · exact .at 0 1 0 rfl rfl
  · exact emitted_unary he
  · exact emitted_binary he
  · cases he
    exact .silent 1 (by simp [gives]) rfl
  iterate 2
    · cases he
      exact .at 0 1 0 rfl rfl
  · cases he
    exact .silent 6 (by simp [gives]) rfl
  · obtain ⟨l, r, -, -, he⟩ := of_some_bind₂ he
    split at he
    · cases he
      exact emitted_lazyOperator
    split at he
    all_goals cases he
    exact emitted_lazyOperator
  · obtain ⟨a, b, -, -, he⟩ := of_some_bind₂ he
    cases he
    rw [run_choice]
    exact .of_mem (x := giving (n + 10) (.load .lw (word 0)) [reg (n + 2)]) 10 1 (by simp) rfl rfl
  · obtain ⟨v, -, he⟩ := bind_eq_some_iff.mp he
    cases he
    exact .silent 6 (by simp [gives]) rfl
  · cases he
    exact .at 4 (2 + o.operands.length) 2 rfl (Prod.ext rfl ((next_list _ n).trans (by omega)))
  · cases he
    exact .at 20 1 11 rfl rfl
  · cases he
    exact .at 30 2 17 rfl rfl
  iterate 2
    · cases he
      exact .silent 1 (by simp [gives]) rfl
  · cases he

end

/-! ## Labels -/

theorem toList_numbered (name : String) (n : Nat) :
    (numbered name n).toList = name.toList ++ toDigits 10 n := by
  rw [numbered]
  simp

theorem isDigit_of_mem_reverse {n : Nat} : ∀ c ∈ (toDigits 10 n).reverse, c.isDigit = true :=
  fun _ hc => isDigit_of_mem_toDigits (by decide) (by decide) (mem_reverse.mp hc)

theorem takeWhile_numbered (xs : List Char) (n : Nat) :
    (xs ++ ['_'] ++ toDigits 10 n).reverse.takeWhile Char.isDigit = (toDigits 10 n).reverse := by
  rw [reverse_append, takeWhile_append_of_pos isDigit_of_mem_reverse]
  simp

theorem dropWhile_numbered (xs : List Char) (n : Nat) :
    (xs ++ ['_'] ++ toDigits 10 n).reverse.dropWhile Char.isDigit = (xs ++ ['_']).reverse := by
  rw [reverse_append, dropWhile_append_of_pos isDigit_of_mem_reverse]
  simp

theorem numbered_inj {a b : String} {k n : Nat} (ha : a.toList.getLast? = some '_')
    (hb : b.toList.getLast? = some '_') (h : numbered a k = numbered b n) : a = b ∧ k = n := by
  obtain ⟨_, hxs⟩ := List.getLast?_eq_some_iff.mp ha
  obtain ⟨_, hys⟩ := List.getLast?_eq_some_iff.mp hb
  have hchars := congrArg String.toList h
  rw [toList_numbered, toList_numbered, hxs, hys] at hchars
  constructor
  · have hname := congrArg (fun cs => cs.reverse.dropWhile Char.isDigit) hchars
    simp only [dropWhile_numbered, reverse_inj] at hname
    rw [← hxs, ← hys] at hname
    exact String.toList_inj.mp hname
  · have hnumber := congrArg (fun cs => cs.reverse.takeWhile Char.isDigit) hchars
    simp only [takeWhile_numbered, reverse_inj] at hnumber
    have hvalue := congrArg (ofDigitChars 10 · 0) hnumber
    simpa using hvalue

variable {name label : String}

theorem getLast?_of_mem_stems (h : name ∈ stems code) : name.toList.getLast? = some '_' := by
  cases code <;> simp only [stems, mem_cons, not_mem_nil, or_false] at h
  case lazyBinary op =>
    subst h
    split <;> rfl
  all_goals obtain rfl | rfl := h <;> rfl

/-- The number that the next label of a name gets. -/
def Labels.named (l : Labels) : String → Nat
  | "_if_else_" | "_if_after_" => l.branch
  | "_and_after_" => l.both
  | "_or_after_" => l.either
  | "_if_expr_else_" | "_if_expr_after_" => l.choice
  | "_while_start_" | "_while_after_" => l.loop
  | _ => 0

theorem Labels.of_eq_named (h : name ∈ stems code) (l : Labels) : l.of code = l.named name := by
  cases code <;> simp only [stems, mem_cons, not_mem_nil, or_false] at h
  case lazyBinary op =>
    subst h
    by_cases hand : op = "and" <;> simp [Labels.of, Labels.named, hand]
  all_goals obtain rfl | rfl := h <;> rfl

theorem Labels.named_le_bump (l : Labels) (code : FlatCode) (name : String) :
    l.named name ≤ (l.bump code).named name := by
  have hfields : l.branch ≤ (l.bump code).branch ∧ l.both ≤ (l.bump code).both ∧
      l.either ≤ (l.bump code).either ∧ l.choice ≤ (l.bump code).choice ∧
      l.loop ≤ (l.bump code).loop := by
    cases code
    case lazyBinary op => by_cases hand : op = "and" <;> simp [Labels.bump, hand]
    all_goals simp [Labels.bump]
  unfold Labels.named
  split <;> simp [hfields]

theorem Labels.of_lt_bump (h : name ∈ stems code) (l : Labels) :
    l.of code < (l.bump code).of code := by
  cases code
  case lazyBinary op => by_cases hand : op = "and" <;> simp [Labels.of, Labels.bump, hand]
  case branch | choice | loop => exact lt_succ_self _
  all_goals simp [stems] at h

def Used (l : Labels) (label : String) : Prop :=
  ∃ name n, name.toList.getLast? = some '_' ∧ n < l.named name ∧ label = numbered name n

variable {l : Labels}

theorem Used.bump (h : Used l label) (code : FlatCode) : Used (l.bump code) label := by
  obtain ⟨name, n, hname, hn, rfl⟩ := h
  exact ⟨name, n, hname, Nat.lt_of_lt_of_le hn (l.named_le_bump code name), rfl⟩

theorem used_of_mem_ownLabels (h : label ∈ ownLabels (l.of code) code) :
    Used (l.bump code) label := by
  obtain ⟨name, hname, rfl⟩ := mem_map.mp h
  refine ⟨name, l.of code, getLast?_of_mem_stems hname, ?_, rfl⟩
  rw [← Labels.of_eq_named hname]
  exact l.of_lt_bump hname

theorem not_used_of_mem_ownLabels (h : label ∈ ownLabels (l.of code) code) : ¬Used l label := by
  obtain ⟨_, hname, rfl⟩ := mem_map.mp h
  rintro ⟨_, n, hname', hn, heq⟩
  obtain ⟨rfl, rfl⟩ := numbered_inj (getLast?_of_mem_stems hname) hname' heq
  rw [← Labels.of_eq_named hname] at hn
  exact Nat.lt_irrefl _ hn

theorem nodup_ownLabels (label : Nat) (code : FlatCode) : (ownLabels label code).Nodup := by
  refine List.Nodup.map_on (fun a ha b hb h => ?_) ?_
  · exact (numbered_inj (getLast?_of_mem_stems ha) (getLast?_of_mem_stems hb) h).1
  · cases code <;> simp [stems]

end Practicum.Machine
