import Practicum.Proofs.Machine.Slots

/-!
# Operations with their values in slots

The lines of an operation do what the operation does: they fetch its operands, compute, and store
its result. Each kind of operation has its own lemma, and `follows_lower` puts them together.
-/

namespace Practicum.Machine

open IR Riscv Assembly List Option Effect Processor Instr Env Core

def Event.request? : Event → Option (Asking × List Word)
  | .ask r args _ => some (r, args)
  | _ => none

/-- The words of a request are in the registers for them. -/
def Passes : Asking → List Word → Core → Prop
  | .call _, args, c => InRegisters 0 args c
  | .system, number :: args, c => c.get .a7 = number ∧ InRegisters 0 args c
  | .pause, [], _ => True
  | _, _, _ => False

def Meets (asked : Asking × List Word) (served : Asking × Core) : Prop :=
  asked.1 = served.1 ∧ Passes asked.1 asked.2 served.2

section
variable {ω : Type}

/-- What the operations of a function find when they run in its frame. -/
def Access.surroundings (a : Access) (sp tp : Word)
    (serve : Asking → List Word → Memory → ω → Option (Word × Memory × ω)) : Surroundings ω where
  slot id := sp + wordOf (a.own.allocOffset id)
  reserved := a.reserves sp tp
  fits := encodable
  serve := serve

/-- The platform answers requests as the operations expect: it gives both stack pointers back as
they were, leaves slots and return address alone, and what it does else depends on the words of the
request, on memory outside the slots and on the world. -/
def Serves (a : Access) (sp tp : Word) (P : Platform ω)
    (serve : Asking → List Word → Memory → ω → Option (Word × Memory × ω)) : Prop :=
  ∀ r args m world w m' world' c, serve r args m world = some (w, m', world') →
    Passes r args c → c.get .sp = sp → c.get .tp = tp →
    (∀ b, a.reserves sp tp b = false → c.memory b = m b) →
    ∃ c', P.serve r c world = some (c', world') ∧ c'.get .sp = sp ∧ c'.get .tp = tp ∧
      (∀ func, r = .call func → c'.get .a0 = w) ∧
      (∀ b, a.reserves sp tp b = false → c'.memory b = m' b) ∧
      ∀ b, a.reserves sp tp b = true → c'.memory b = c.memory b

/-- A processor went on as an operation says: the world is that after the operation, the registers
and the memory hold the values after it, and the requests that were made are its requests. -/
structure Follows (P : Platform ω) (lines : List Line) (a : Access) (sp tp ra : Word)
    (t : Processor ω) (values : Values) (e : Effect ω) (t' : Processor ω) : Prop where
  reaches : t.Reaches P lines t'
  world : t'.world = e.world
  mirrors : Mirrors a sp tp ra values e.memory t'.core
  served : ∃ new, t'.served = t.served ++ new ∧
    List.Forall₂ Meets (e.events.filterMap Event.request?) new

def destination (lines : List Line) (func : String) (k : Nat) : Course → Spot
  | .on => .at k
  | .jump name => behind lines name
  | .leave _ => behind lines (returnLabel func)

/-- A processor follows an operation and comes to where it leads, to line `k` if it just goes on. At
the end of a function it holds the result. -/
def Arrives (P : Platform ω) (lines : List Line) (func : String) (a : Access) (sp tp ra : Word)
    (t : Processor ω) (values : Values) (e : Effect ω) (k : Nat) : Prop :=
  ∃ t', Follows P lines a sp tp ra t values e t' ∧ t'.place = destination lines func k e.course ∧
    ∀ w, e.course = .leave w → t'.core.get .a0 = w

variable {P : Platform ω} {lines ls : List Line} {a : Access} {sp tp ra : Word} {m : Memory}
  {values values' : Values} {world : ω} {e : Effect ω} {t : Processor ω} {k : Nat} {o : Op}
  {serve : Asking → List Word → Memory → ω → Option (Word × Memory × ω)} {func : String}
  {args : List Word} {c c' : Core}
variable {line : Line} {code : MachineCode} {note : Option String}

theorem follows_of_carries (hplace : t.place = .at k) (hworld : t.world = e.world)
    (hls : StandsAt lines k ls) (hcarries : Carries ls t.core c)
    (hmirrors : Mirrors a sp tp ra values e.memory c)
    (hevents : e.events.filterMap Event.request? = []) :
    ∃ t', Follows P lines a sp tp ra t values e t' ∧ t'.place = .at (k + ls.length) :=
  ⟨_, ⟨reaches_of_carries hcarries hplace rfl hls, hworld, hmirrors,
    [], (append_nil _).symm, hevents ▸ .nil⟩, rfl⟩

theorem Follows.arrives {t' : Processor ω} (h : Follows P lines a sp tp ra t values e t')
    (hplace : t'.place = .at k) (hcourse : e.course = .on) :
    Arrives P lines func a sp tp ra t values e k := by
  refine ⟨t', h, ?_, ?_⟩
  · rw [hcourse]
    exact hplace
  · rw [hcourse]
    nofun

theorem Mirrors.ask (h : Mirrors a sp tp ra values m c) (hserves : Serves a sp tp P serve)
    {r : Asking} {w : Word} {m' : Memory} {world' : ω}
    (hserve : serve r args m world = some (w, m', world')) (hpasses : Passes r args c)
    (hfits : a.Fits) :
    ∃ c', P.serve r c world = some (c', world') ∧ Mirrors a sp tp ra values m' c' ∧
      ∀ func, r = .call func → c'.get .a0 = w := by
  obtain ⟨c', hanswer, hsp, htp, hresult, hshared, hkept⟩ :=
    hserves r args m world w m' world' c hserve hpasses h.ownPointer h.mainPointer h.shared
  refine ⟨c', hanswer, ⟨hsp, htp, fun id w x hw hx => ?_, hshared, ?_⟩, hresult⟩
  · rw [← h.held id w x hw hx]
    exact Memory.word_congr fun b hb => hkept b (reserves_of_address? hfits hx hb)
  · rw [← h.saved]
    refine Memory.word_congr fun b hb => hkept b ?_
    simp [Access.reserves, hb]

/-! ## Instructions -/

theorem Mirrors.loads (hfits : a.Fits) (h : Mirrors a sp tp ra values m c) {operands : List Val}
    (hargs : operands.mapM (fun v => values v.id) = some args) (hlength : args.length ≤ 2)
    (hls : ((operands.zip [.t1, .t2]).mapM fun (v, r) => a.fetch (some v) r) = .ok ls) :
    ∃ c', Carries ls c c' ∧ Mirrors a sp tp ra values m c' ∧
      (∀ x, args[0]? = some x → c'.get .t1 = x) ∧ ∀ y, args[1]? = some y → c'.get .t2 = y := by
  match operands with
  | [] =>
    cases hls
    cases hargs
    exact ⟨c, .nil c, h, nofun, nofun⟩
  | [v] =>
    obtain ⟨x, _, hx, ⟨⟩, rfl⟩ := of_mapM_cons hargs
    obtain ⟨l, hl, hls⟩ := of_bind hls
    cases hls
    refine ⟨c.set .t1 x, .single (h.fetch hfits hl hx), h.set x, ?_, nofun⟩
    rintro _ ⟨⟩
    exact get_set_self
  | [v, v'] =>
    obtain ⟨x, _, hx, hrest, rfl⟩ := of_mapM_cons hargs
    obtain ⟨y, _, hy, ⟨⟩, rfl⟩ := of_mapM_cons hrest
    obtain ⟨l, _, hl, hl', hls⟩ := of_bind₂ hls
    cases hls
    have h1 := h.set (r := .t1) x
    refine ⟨(c.set .t1 x).set .t2 y, .cons (h.fetch hfits hl hx) (.single (h1.fetch hfits hl' hy)),
      h1.set y, ?_, ?_⟩
    · rintro _ ⟨⟩
      exact (get_set_of_ne).trans get_set_self
    · rintro _ ⟨⟩
      exact get_set_self
  | v :: v' :: v'' :: rest =>
    rw [length_of_mapM hargs] at hlength
    simp only [length_cons] at hlength
    omega

theorem carries_around {loads spills : List Line} {c1 c2 : Core} {note : String}
    (hfits : a.Fits) (hapart : a.Apart sp tp) (hloads : Carries loads c c1)
    (hline : line.move? c1 = some c2) (hmirrors : Mirrors a sp tp ra values m c2)
    (hspills : o.results.mapM (a.spill .t0) = .ok spills) {w : Option Word}
    (hw : ∀ x, w = some x → c2.get .t0 = x) (hvalues : values.define? o.results w = some values') :
    ∃ c3, Carries ([blank, remark note] ++ loads ++ [line] ++ spills) c c3 ∧
      Mirrors a sp tp ra values' m c3 := by
  have hbefore : Carries ([blank, remark note] ++ loads ++ [line]) c c2 :=
    (Carries.cons rfl (.cons rfl hloads)).append (.single hline)
  cases w with
  | none =>
    obtain ⟨hresults, rfl⟩ := define?_none hvalues
    rw [hresults] at hspills
    cases hspills
    exact ⟨c2, hbefore.append (.nil c2), hmirrors⟩
  | some x =>
    rw [← hw x rfl] at hvalues
    obtain ⟨c3, hcarries, hmirrors⟩ := hmirrors.spills hfits hapart hspills hvalues
    exact ⟨c3, hbefore.append hcarries, hmirrors⟩

/-- What the line of an instruction does with its operands in registers: it computes and goes on,
it jumps, or it stops for the platform. -/
inductive Acts (a : Access) (sp tp ra : Word)
    (serve : Asking → List Word → Memory → ω → Option (Word × Memory × ω)) (values : Values)
    (m : Memory) (world : ω) (line : Line) (c : Core) (e : Effect ω) : Prop where
  | move (c' : Core) (line : line.move? c = some c')
      (mirrors : Mirrors a sp tp ra values e.memory c')
      (value : ∀ x, e.value = some x → c'.get .t0 = x) (world : e.world = world)
      (course : e.course = .on) (events : e.events.filterMap Event.request? = [])
  | jump (i : Instr) (note : Option String) (name : String) (line : line = .instr i note)
      (request : i.request? = none) (exec : i.exec? c = some (c, .jump name))
      (effect : e = go (.jump name) m world)
  | pause (note : Option String) (w : Word) (line : line = .instr (.plain .ebreak) note)
      (value : e.value = none) (course : e.course = .on) (events : e.events = [.ask .pause [] w])
      (answer : serve .pause [] m world = some (w, e.memory, e.world))

theorem Mirrors.read (h : Mirrors a sp tp ra values m c) {op : LoadOp} {x : Word}
    (hfree : (a.surroundings sp tp serve).free x op.width) : op.read c.memory x = op.read m x :=
  LoadOp.read_congr fun b hb => h.shared b (Surroundings.not_reserved_of_free hfree hb)

theorem length_le_of_instruction? {E : Surroundings ω} (hline : instruction? code note = some line)
    {id : Nat} (he : of? E code id args m world = some e) : args.length ≤ 2 := by
  unfold of? at he
  split at he
  all_goals first | (simp; done) | cases hline | cases he

theorem acts_of_instruction? (hfits : a.Fits) (h : Mirrors a sp tp ra values m c)
    (hline : instruction? code note = some line) (h1 : ∀ x, args[0]? = some x → c.get .t1 = x)
    (h2 : ∀ y, args[1]? = some y → c.get .t2 = y) {id : Nat}
    (he : of? (a.surroundings sp tp serve) code id args m world = some e) :
    Acts a sp tp ra serve values m world line c e := by
  have hset (w : Word) : Mirrors a sp tp ra values m (c.set .t0 w) := h.set w
  have hget (w : Word) : (c.set .t0 w).get .t0 = w := get_set_self
  unfold of? at he
  split at he
  next op offset x =>
    cases hline
    obtain rfl := h1 x rfl
    dsimp only at he
    split at he
    next hif =>
      obtain ⟨hoffset, hfree⟩ := Bool.and_eq_true_iff.mp hif
      cases he
      refine .move _ ?_ (hset _) (fun w hw => (hget _).trans (Option.some.inj hw)) rfl rfl rfl
      simp [Line.move?, request?, exec?, show encodable offset.value from hoffset, h.read hfree]
    · cases he
  next op offset w x =>
    cases hline
    obtain rfl := h1 w rfl
    obtain rfl := h2 x rfl
    dsimp only at he
    split at he
    next hif =>
      obtain ⟨hoffset, hfree⟩ := Bool.and_eq_true_iff.mp hif
      cases he
      refine .move _ ?_ (h.store hfits fun b hb => Surroundings.not_reserved_of_free hfree hb)
        (fun _ hw => by cases hw) rfl rfl rfl
      simp [Line.move?, request?, exec?, show encodable offset.value from hoffset]
    · cases he
  next op n x =>
    cases hline
    obtain rfl := h1 x rfl
    split at he
    next hif =>
      cases he
      refine .move _ ?_ (hset _) (fun w hw => (hget _).trans (Option.some.inj hw)) rfl rfl rfl
      simp [Line.move?, request?, exec?, show encodable n.value from hif]
    · cases he
  next op x y =>
    cases hline
    obtain rfl := h1 x rfl
    obtain rfl := h2 y rfl
    cases he
    exact .move _ rfl (hset _) (fun w hw => (hget _).trans (Option.some.inj hw)) rfl rfl rfl
  next op n =>
    cases hline
    obtain ⟨w, hw, rfl⟩ := map_eq_some_iff.mp he
    refine .move _ ?_ (hset w) (fun _ hw' => (hget _).trans (Option.some.inj hw')) rfl rfl rfl
    simp [Line.move?, request?, exec?, hw]
  next op name x y =>
    cases hline
    obtain rfl := h1 x rfl
    obtain rfl := h2 y rfl
    cases he
    by_cases htaken : op.holds (c.get .t1) (c.get .t2)
    · exact .jump _ _ name rfl rfl (by simp [exec?, htaken]) (by rw [if_pos htaken])
    · exact .move c (by simp [Line.move?, request?, exec?, htaken]) h
        (fun _ hw => by cases hw) rfl (if_neg htaken) rfl
  next name =>
    cases hline
    cases he
    exact .jump _ _ name rfl rfl rfl rfl
  · cases hline
  · cases hline
    obtain ⟨_, hasked, rfl⟩ := map_eq_some_iff.mp he
    obtain ⟨⟨w, _, _⟩, hserve, rfl⟩ := map_eq_some_iff.mp hasked
    exact .pause _ w rfl rfl rfl rfl hserve
  · cases hline
  · cases hline
    cases he
    exact .move c rfl h (fun _ hw => by cases hw) rfl rfl rfl
  iterate 3
    · cases hline
  · cases he

theorem follows_of_request {before after : List Line} {i : Instr} {r : Asking} {w : Word}
    {c1 : Core} (hfits : a.Fits) (hserves : Serves a sp tp P serve) (hplace : t.place = .at k)
    (hbefore : Carries before t.core c1) (hmirrors : Mirrors a sp tp ra values m c1)
    (hstands : StandsAt lines k (before ++ .instr i note :: after)) (hrequest : i.request? = some r)
    (hpasses : Passes r args c1) (hserve : serve r args m t.world = some (w, e.memory, e.world))
    (hevents : e.events = [.ask r args w]) (hafter : ∀ c2, Mirrors a sp tp ra values e.memory c2 →
      (∀ func, r = .call func → c2.get .a0 = w) →
      ∃ c3, Carries after c2 c3 ∧ Mirrors a sp tp ra values' e.memory c3) :
    ∃ t', Follows P lines a sp tp ra t values' e t' ∧
      t'.place = .at (k + before.length + 1 + after.length) := by
  obtain ⟨c2, hanswer, hmirrors2, hresult⟩ := hmirrors.ask hserves hserve hpasses hfits
  obtain ⟨c3, hcarries, hmirrors3⟩ := hafter c2 hmirrors2 hresult
  have hreach := reaches_of_carries (P := P) hbefore hplace rfl hstands.left
  have hstep := step?_of_request (P := P) (s := { t with place := _, core := c1 }) rfl
    hstands.right.head hrequest hanswer
  have hrest := reaches_of_carries (P := P)
    (s := { place := .at (k + before.length + 1), core := c2, world := e.world,
            served := t.served ++ [(r, c1)] }) hcarries rfl rfl hstands.right.tail
  refine ⟨_, ⟨(hreach.tail hstep).trans hrest, rfl, hmirrors3, [(r, c1)], rfl, ?_⟩, rfl⟩
  rw [hevents]
  exact .cons ⟨rfl, hpasses⟩ .nil

theorem follows_instruction {loads spills : List Line} (hfits : a.Fits) (hapart : a.Apart sp tp)
    (hserves : Serves a sp tp P serve) (hmirrors : Mirrors a sp tp ra values m t.core)
    (hplace : t.place = .at k) (hline : instruction? code note = some line)
    (hloads : ((o.operands.zip [.t1, .t2]).mapM fun (v, r) => a.fetch (some v) r) = .ok loads)
    (hspills : o.results.mapM (a.spill .t0) = .ok spills)
    (hstands : StandsAt lines k ([blank, remark o.code.name] ++ loads ++ [line] ++ spills))
    (hargs : o.operands.mapM (fun v => values v.id) = some args)
    (he : of? (a.surroundings sp tp serve) code o.id args m t.world = some e)
    (hvalues : values.define? o.results e.value = some values') :
    Arrives P lines func a sp tp ra t values' e
      (k + ([blank, remark o.code.name] ++ loads ++ [line] ++ spills).length) := by
  obtain ⟨c1, hcarries, hmirrors1, h1, h2⟩ :=
    hmirrors.loads hfits hargs (length_le_of_instruction? hline he) hloads
  have hbefore : Carries ([blank, remark o.code.name] ++ loads) t.core c1 :=
    .cons rfl (.cons rfl hcarries)
  cases acts_of_instruction? hfits hmirrors1 hline h1 h2 he with
  | move c2 hmove hmirrors2 hvalue hworld hcourse hevents =>
    obtain ⟨_, hcarries, hmirrors3⟩ :=
      carries_around hfits hapart hcarries hmove hmirrors2 hspills hvalue hvalues
    obtain ⟨t', hfollows, hplace⟩ :=
      follows_of_carries (P := P) hplace hworld.symm hstands hcarries hmirrors3 hevents
    exact hfollows.arrives hplace hcourse
  | jump i note name hi hrequest hexec heffect =>
    subst hi heffect
    obtain ⟨-, rfl⟩ := define?_none hvalues
    have hreach := reaches_of_carries (P := P) hbefore hplace rfl hstands.left.left
    have hstep := step?_of_jump (P := P) (s := { t with place := _, core := c1 }) rfl
      hstands.left.right.head hrequest hexec
    exact ⟨_, ⟨hreach.tail hstep, rfl, hmirrors1, [], (append_nil _).symm, .nil⟩, rfl, nofun⟩
  | pause note w hi hvalue hcourse hevents hanswer =>
    subst hi
    rw [hvalue] at hvalues
    obtain ⟨hresults, rfl⟩ := define?_none hvalues
    rw [hresults] at hspills
    cases hspills
    rw [reverse_nil, append_nil] at hstands ⊢
    obtain ⟨t', hfollows, hplace⟩ := follows_of_request hfits hserves hplace hbefore hmirrors1
      hstands rfl (show Passes .pause [] c1 from trivial) hanswer hevents fun c2 hmirrors2 _ =>
        ⟨c2, .nil c2, hmirrors2⟩
    exact hfollows.arrives (hplace.trans (by simp [Nat.add_assoc])) hcourse

/-! ## Requests and memory -/

section
variable (hfits : a.Fits) (hmirrors : Mirrors a sp tp ra values m t.core) (hplace : t.place = .at k)
  (hstands : StandsAt lines k ls) (hargs : o.operands.mapM (fun v => values v.id) = some args)
  (hvalues : values.define? o.results e.value = some values')

include hfits hmirrors hplace hstands hargs hvalues

theorem follows_systemCall (hserves : Serves a sp tp P serve) (hls : a.systemCall o = .ok ls)
    (he : of? (a.surroundings sp tp serve) .ecall o.id args m t.world = some e) :
    Arrives P lines func a sp tp ra t values' e (k + ls.length) := by
  obtain ⟨l, _, hl, hloads, hls⟩ := of_bind₂ hls
  cases hls
  match hoperands : o.operands with
  | [] =>
    rw [hoperands] at hargs
    cases hargs
    cases he
  | v :: vs =>
    rw [hoperands] at hargs hl hloads
    obtain ⟨number, rest, hnumber, hrest, rfl⟩ := of_mapM_cons hargs
    dsimp only [of?] at he
    split at he
    next hlength =>
      obtain ⟨_, hasked, rfl⟩ := map_eq_some_iff.mp he
      obtain ⟨⟨w, m', world'⟩, hserve, rfl⟩ := map_eq_some_iff.mp hasked
      obtain ⟨-, rfl⟩ := define?_none hvalues
      obtain ⟨c1, hcarries, hmirrors1, hin, hkept⟩ :=
        (hmirrors.set (r := .a7) number).fetchArgs hfits hloads hrest
      have hseventh : c1.get .a7 = number := by
        rw [hkept .a7, get_set_self]
        intro j _ hj hargument
        have := argument?_injective hargument (k := 7) rfl
        omega
      have hpasses : Passes .system (number :: rest) c1 := ⟨hseventh, hin⟩
      obtain ⟨_, hfollows, hplace⟩ := follows_of_request
        (e := ⟨none, m', world', [.ask .system (number :: rest) w], .on⟩) hfits hserves hplace
        (.cons (hmirrors.fetch hfits hl hnumber) hcarries) hmirrors1 hstands rfl hpasses hserve rfl
        fun c2 hmirrors2 _ => ⟨c2, .nil c2, hmirrors2⟩
      exact hfollows.arrives (hplace.trans (by simp [Nat.add_assoc])) rfl
    · cases he

theorem follows_funcCall {callee : String} (hapart : a.Apart sp tp)
    (hserves : Serves a sp tp P serve) (hls : a.funcCall callee o = .ok ls)
    (he : of? (a.surroundings sp tp serve) (.call callee) o.id args m t.world = some e) :
    Arrives P lines func a sp tp ra t values' e (k + ls.length) := by
  obtain ⟨loads, spills, hloads, hspills, hls⟩ := of_bind₂ hls
  cases hls
  obtain ⟨⟨w, m', world'⟩, hserve, rfl⟩ := map_eq_some_iff.mp he
  obtain ⟨c1, hcarries, hmirrors1, hin, -⟩ := hmirrors.fetchArgs hfits hloads hargs
  have hbefore : Carries ([blank, remark o.code.name] ++ loads) t.core c1 :=
    .cons rfl (.cons rfl hcarries)
  have hafter : ∀ c2, Mirrors a sp tp ra values m' c2 →
      (∀ func, Asking.call callee = .call func → c2.get .a0 = w) →
      ∃ c3, Carries spills c2 c3 ∧ Mirrors a sp tp ra values' m' c3 := by
    intro c2 hmirrors2 hresult
    rw [← hresult callee rfl] at hvalues
    obtain ⟨c3, hcarries, hmirrors3⟩ := hmirrors2.spills hfits hapart hspills hvalues
    exact ⟨c3, hcarries, hmirrors3⟩
  rw [append_assoc _ [call callee]] at hstands
  obtain ⟨_, hfollows, hplace⟩ := follows_of_request
    (e := ⟨some w, m', world', [.ask (.call callee) args w], .on⟩) hfits hserves hplace hbefore
    hmirrors1 hstands rfl (show Passes (.call callee) args c1 from hin) hserve rfl hafter
  exact hfollows.arrives (hplace.trans (by simp; omega)) rfl

omit hargs in
theorem follows_stackMemory (hapart : a.Apart sp tp) (hls : a.stackMemory o = .ok ls)
    (halloc : o.id ∈ a.own.allocs)
    (he : of? (a.surroundings sp tp serve) .alloc o.id args m t.world = some e) :
    Arrives P lines func a sp tp ra t values' e (k + ls.length) := by
  obtain ⟨spills, hspills, hls⟩ := of_bind hls
  cases hls
  obtain ⟨x, hx⟩ : ∃ x, x = sp + wordOf (a.own.allocOffset o.id) := ⟨_, rfl⟩
  obtain rfl : e = pure x m t.world := by
    cases args with
    | nil => exact hx ▸ (Option.some.inj he).symm
    | cons y _ => cases he
  have hmove : (addi .t0 .sp (a.own.allocOffset o.id) "Save ptr of stack-slot into register").move?
      t.core = some (t.core.set .t0 x) := by
    rw [move?_addi (hfits.allocs o.id halloc), hmirrors.ownPointer, hx]
  have hmirrors₁ := hmirrors.set (r := .t0) x
  have hget : (t.core.set .t0 x).get .t0 = x := get_set_self
  have hvalues : values.define? o.results (some ((t.core.set .t0 x).get .t0)) = some values' :=
    hget.symm ▸ hvalues
  obtain ⟨_, hcarries, hmirrors₂⟩ := hmirrors₁.spills hfits hapart hspills hvalues
  obtain ⟨_, hfollows, hplace⟩ :=
    follows_of_carries (P := P) (e := pure x m t.world) hplace rfl hstands
      (.cons hmove hcarries) hmirrors₂ rfl
  exact hfollows.arrives hplace rfl

theorem follows_leave (hls : a.leave func o = .ok ls)
    (he : of? (a.surroundings sp tp serve) .ret o.id args m t.world = some e) :
    Arrives P lines func a sp tp ra t values' e (k + ls.length) := by
  obtain ⟨l, hl, hls⟩ := of_bind hls
  cases hls
  obtain ⟨w, rfl, rfl⟩ : ∃ w, args = [w] ∧ e = go (.leave w) m t.world := by
    match args with
    | [] => cases he
    | [w] =>
      cases he
      exact ⟨w, rfl, rfl⟩
    | _ :: _ :: _ => cases he
  obtain ⟨-, rfl⟩ := define?_none hvalues
  obtain ⟨v, hv, hw⟩ : ∃ v, o.operands.head? = some v ∧ values' v.id = some w := by
    cases hoperands : o.operands with
    | nil =>
      rw [hoperands] at hargs
      cases hargs
    | cons v _ =>
      rw [hoperands] at hargs
      obtain ⟨_, _, hw, -, ⟨⟩⟩ := of_mapM_cons hargs
      exact ⟨v, rfl, hw⟩
  rw [hv] at hl
  have hmirrors1 := hmirrors.set (r := .a0) w
  have hstep := step?_of_move? (P := P) hplace hstands.head (hmirrors.fetch hfits hl hw)
  have hjump := step?_of_jump (P := P)
    (s := { t with place := .at (k + 1), core := t.core.set .a0 w }) rfl hstands.tail.head rfl rfl
  refine ⟨_, ⟨.tail (.single hstep) hjump, rfl, hmirrors1, [], (append_nil _).symm, .nil⟩, rfl, ?_⟩
  rintro _ ⟨⟩
  exact get_set_self

/-- The lines of an operation do what the operation does. -/
theorem follows_lower (hapart : a.Apart sp tp)
    (hserves : Serves a sp tp P serve) (hls : lower a func o = .ok (some ls))
    (hcode : o.machine? = some code) (halloc : code = .alloc → o.id ∈ a.own.allocs)
    (he : of? (a.surroundings sp tp serve) code o.id args m t.world = some e) :
    Arrives P lines func a sp tp ra t values' e (k + ls.length) := by
  unfold lower at hls
  split at hls
  next hop =>
    obtain ⟨_, hls, ⟨⟩⟩ := map_eq_ok_iff.mp hls
    cases hcode.symm.trans (machine?_of_code hop)
    exact follows_systemCall hfits hmirrors hplace hstands hargs hvalues hserves hls he
  next callee _ hop =>
    obtain ⟨_, hls, ⟨⟩⟩ := map_eq_ok_iff.mp hls
    cases hcode.symm.trans (machine?_of_code hop)
    exact follows_funcCall hfits hmirrors hplace hstands hargs hvalues hapart hserves hls he
  next hop =>
    obtain ⟨_, hls, ⟨⟩⟩ := map_eq_ok_iff.mp hls
    cases hcode.symm.trans (machine?_of_code hop)
    exact follows_stackMemory hfits hmirrors hplace hstands hvalues hapart hls (halloc rfl) he
  next hop =>
    obtain ⟨_, hls, ⟨⟩⟩ := map_eq_ok_iff.mp hls
    cases hcode.symm.trans (machine?_of_code hop)
    exact follows_leave hfits hmirrors hplace hstands hargs hvalues hls he
  next code' note _ _ _ _ hop =>
    cases hcode.symm.trans (machine?_of_code hop)
    split at hls
    next line hline =>
      obtain ⟨_, _, hloads, hspills, hls⟩ := of_bind₂ hls
      cases hls
      exact follows_instruction hfits hapart hserves hmirrors hplace hline hloads hspills hstands
        hargs he hvalues
    · cases hls
  · cases hls

end

end

end Practicum.Machine
