import Mathlib.Algebra.BigOperators.Group.List.Basic
import Mathlib.Algebra.Ring.Int.Defs
import Mathlib.Data.List.Induction
import Practicum.Net.Capture.EverySegment
import Practicum.Net.Capture.SentBytes
import Practicum.Proofs.Runs

/-!
# What the two analyses of flows count

Both analyses count a TCP segment for its connection, whichever end opened the flow. They differ in
the frames without an Internet packet: one passes them over, the other counts the last packet again.
-/

namespace Practicum.Net.Capture

open List EverySegment Packet

variable {c : Connection} {f : Flows} {p : Packet} {items : List (Option Packet)}
  {frames : List Bytes} {k : Nat}

def Connection.Same (c c' : Connection) : Prop :=
  c' = c ∨ c' = c.reverse

instance (c c' : Connection) : Decidable (c.Same c') :=
  inferInstanceAs (Decidable (_ ∨ _))

theorem Connection.Same.same_iff {key : Connection} (h : c.Same key) (d : Connection) :
    d.Same key ↔ d.Same c := by
  obtain ⟨_, _, _, _⟩ := c
  obtain ⟨_, _, _, _⟩ := d
  obtain rfl | rfl := h
  · rfl
  · simp only [Same, reverse, mk.injEq]
    grind

/-- The bytes that a table holds for a connection, in whichever direction it is entered. -/
def Flows.total (f : Flows) (c : Connection) : Int :=
  ((f.table.filter fun entry => c.Same entry.1).map Prod.snd).sum

/-- The packet of a captured frame. -/
def packetOf (bytes : Bytes) : Except CaptureError (Option Packet) := do
  (← Frame.read bytes).packet

/-- The bytes of a packet for a connection if the header of its segment is taken off `k` times. -/
def Packet.share (p : Packet) (c : Connection) (k : Nat) : Int :=
  match p.segment with
  | some s =>
    if p.protocol = tcp ∧ c.Same (p.connection s) then p.size - 4 * s.headerWords * k else 0
  | none => 0

/-- What frames without a packet add behind a packet whose header was taken off `k` times: each of
them stands for the last packet once more. -/
def echoes (c : Connection) (p : Packet) (k : Nat) : List (Option Packet) → Int
  | [] => 0
  | some p :: items => echoes c p 1 items
  | none :: items => p.share c (k + 1) + echoes c p (k + 1) items

/-! ## Tables -/

/-- The bytes under a connection, in whichever direction they are entered. -/
def bytesFor (entries : List (Connection × Int)) (c : Connection) : List Int :=
  (entries.filter fun entry => c.Same entry.1).map Prod.snd

theorem bytesFor_append (xs ys : List (Connection × Int)) :
    bytesFor (xs ++ ys) c = bytesFor xs c ++ bytesFor ys c := by
  simp [bytesFor]

theorem bytesFor_map (key : Connection) (ns : List Int) :
    bytesFor (ns.map (key, ·)) c = if c.Same key then ns else [] := by
  by_cases h : c.Same key <;> simp [bytesFor, filter_map, Function.comp_def, h]

theorem exists_bytesFor_put (t : Table Connection Int) (key : Connection) (n : Int)
    (c : Connection) : ∃ ns₁ ns₂,
      bytesFor t c = ns₁ ++ (if c.Same key then (t.get? key).toList else []) ++ ns₂ ∧
      bytesFor (t.put key n) c = ns₁ ++ (if c.Same key then [n] else []) ++ ns₂ := by
  obtain ⟨t₁, t₂, ht, hput⟩ := t.exists_put_eq key n
  refine ⟨bytesFor t₁ c, bytesFor t₂ c, ?_, ?_⟩
  · rw [← bytesFor_map, ← bytesFor_append, ← bytesFor_append, ← ht]
  · rw [← bytesFor_map, ← bytesFor_append, ← bytesFor_append]
    exact congrArg (bytesFor · c) hput

theorem total_of_put {g : Flows} {c' key : Connection} {n : Int} (hkey : c'.Same key)
    (hg : g.table = f.table.put key ((f.table.get? key).getD 0 + n)) :
    g.total c = f.total c + if c.Same c' then n else 0 := by
  obtain ⟨ns₁, ns₂, hold, hnew⟩ := exists_bytesFor_put f.table key ((f.table.get? key).getD 0 + n) c
  rw [← hg] at hnew
  show (bytesFor g.table c).sum = (bytesFor f.table c).sum + _
  rw [hold, hnew, ← if_congr (hkey.same_iff c) rfl rfl]
  by_cases h : c.Same key
  · cases f.table.get? key <;> simp [h] <;> omega
  · simp [h]

/-- A segment is counted in an entry of its connection, and opens one where there is none. -/
theorem EverySegment.count_spec (f : Flows) (c : Connection) (n : Int) :
    ∃ key, c.Same key ∧ (count f c n).table = f.table.put key ((f.table.get? key).getD 0 + n) ∧
      (count f c n).flows = f.flows + (if f.table.get? key = none then 1 else 0) ∧
      (f.table.get? key = none → ∀ k, c.Same k → f.table.get? k = none) := by
  unfold count
  split
  next m hm => exact ⟨c.reverse, .inr rfl, by simp [hm]⟩
  next hreverse =>
    split
    next m hm => exact ⟨c, .inl rfl, by simp [hm]⟩
    next hnone => exact ⟨c, .inl rfl, by simp [hnone, hreverse, Connection.Same]⟩

theorem SentBytes.exists_count_eq (f : Flows) (c : Connection) (n : Int) : ∃ key, c.Same key ∧
    (count f c n).table = f.table.put key ((f.table.get? key).getD 0 + n) := by
  unfold count
  split
  next m hm => exact ⟨c, .inl rfl, by simp [hm]⟩
  next hnone =>
    split
    next m hm => exact ⟨c.reverse, .inr rfl, by simp [hm]⟩
    · exact ⟨c, .inl rfl, by simp [hnone]⟩

/-! ## Captures

After its frames are read, a capture is a sequence of packets and of frames without one, and each
analysis is a run over that sequence.
-/

theorem total_countPacket (f : Flows) (p : Packet) (c : Connection) :
    (countPacket f p).total c = f.total c + p.share c 1 := by
  unfold countPacket share
  by_cases htcp : p.protocol = tcp
  · cases p.segment with
    | none => simp [htcp]
    | some s =>
      obtain ⟨_, hkey, htable, -⟩ := count_spec f (p.connection s) (p.size - 4 * s.headerWords)
      simp [htcp, total_of_put hkey htable]
  · cases hs : p.segment <;> simp [htcp]

def EverySegment.countItem (f : Flows) (item : Option Packet) : Flows :=
  let f := { f with frames := f.frames + 1 }
  (item.map (countPacket f)).getD f

def SentBytes.countItem (s : State) (item : Option Packet) : Except CaptureError State :=
  let s := { s with flows := { s.flows with frames := s.flows.frames + 1 } }
  match item with
  | some p =>
    if p.protocol = tcp then countLast { s with last := .tcp p p.size }
    else .ok { s with last := .other }
  | none => countLast s

theorem foldlM_of_mapM {ε σ α β : Type} {read : β → Except ε α} {step : σ → β → Except ε σ}
    {g : σ → α → Except ε σ} (hstep : ∀ s b, step s b = read b >>= g s) {bs : List β}
    {as : List α} (h : bs.mapM read = .ok as) (s : σ) : bs.foldlM step s = as.foldlM g s := by
  rw [mapM_eq_ok_iff] at h
  induction h generalizing s with
  | nil => rfl
  | cons ha _ ih =>
    rw [foldlM_cons, foldlM_cons, hstep, ha]
    exact bind_congr ih

theorem EverySegment.step_eq (f : Flows) (bytes : Bytes) :
    step f bytes = packetOf bytes >>= fun item => .ok (countItem f item) := by
  unfold step packetOf
  rw [bind_assoc]
  refine bind_congr fun frame => bind_congr fun item => ?_
  cases item <;> rfl

theorem EverySegment.analyse_eq (h : frames.mapM packetOf = .ok items) :
    analyse frames = .ok (items.foldl countItem {}) := by
  unfold analyse
  rw [foldlM_of_mapM step_eq h]
  exact foldlM_pure

theorem SentBytes.analyse_eq (h : frames.mapM packetOf = .ok items) :
    SentBytes.analyse frames = (items.foldlM SentBytes.countItem {}).map State.flows := by
  unfold analyse
  rw [foldlM_of_mapM (g := countItem) ?_ h]
  intro s bytes
  unfold step packetOf
  rw [bind_assoc]
  refine bind_congr fun frame => bind_congr fun item => ?_
  cases item <;> rfl

/-- The last packet after its header was taken off `k` times. -/
def SentBytes.standing (p : Packet) (k : Nat) : Last :=
  if p.protocol = tcp then
    .tcp p (p.size - 4 * ((p.segment.map Segment.headerWords).getD 0) * k)
  else .other

theorem SentBytes.countLast_standing {s : State} (hs : s.last = standing p k) :
    ∃ s', countLast s = .ok s' ∧ s'.last = standing p (k + 1) ∧
      ∀ c, s'.flows.total c = s.flows.total c + p.share c (k + 1) := by
  by_cases htcp : p.protocol = tcp
  · cases hseg : p.segment with
    | none => exact ⟨s, by simp [countLast, hs, standing, htcp, hseg, share]⟩
    | some segment =>
      have hleft : p.size - 4 * segment.headerWords * k - 4 * segment.headerWords =
          p.size - 4 * segment.headerWords * (k + 1 : Nat) := by
        rw [Int.natCast_succ, Int.mul_add]
        omega
      simp only [countLast, hs, standing, htcp, hseg, share, Option.map_some,
        Option.getD_some, hleft, if_true, true_and]
      refine ⟨_, rfl, by split <;> rfl, fun c => ?_⟩
      split
      next hzero => rw [hzero, ite_self, Int.add_zero]
      · obtain ⟨_, hkey, htable⟩ := exists_count_eq s.flows (p.connection segment) _
        exact total_of_put hkey htable
  · refine ⟨s, by simp [countLast, hs, standing, htcp], by simp [hs, standing, htcp], fun c => ?_⟩
    unfold share
    split <;> simp [htcp]

theorem SentBytes.countItem_some (s : State) (p : Packet) :
    ∃ s', countItem s (some p) = .ok s' ∧ s'.last = standing p 1 ∧
      ∀ c, s'.flows.total c = s.flows.total c + p.share c 1 := by
  obtain ⟨s', hs', hlast, htotal⟩ :=
    countLast_standing (p := p) (k := 0)
      (s := { flows := { s.flows with frames := s.flows.frames + 1 }, last := standing p 0 }) rfl
  refine ⟨s', ?_, hlast, htotal⟩
  rw [← hs']
  by_cases htcp : p.protocol = tcp <;> simp [countItem, countLast, standing, htcp]

/-- Behind a packet, the second analysis counts what the first does and the echoes. -/
theorem SentBytes.foldlM_countItem (items : List (Option Packet)) {s : State}
    (hs : s.last = standing p k) (f : Flows) :
    ∃ s', items.foldlM countItem s = .ok s' ∧ ∀ c, s'.flows.total c =
      s.flows.total c + ((items.foldl EverySegment.countItem f).total c - f.total c) +
        echoes c p k items := by
  induction items generalizing s k p f with
  | nil => exact ⟨s, rfl, fun c => by simp [echoes]⟩
  | cons item items ih =>
    cases item with
    | some q =>
      obtain ⟨s1, hstep, hlast, htotal⟩ := countItem_some s q
      obtain ⟨s', hrun, hend⟩ := ih hlast (EverySegment.countItem f (some q))
      refine ⟨s', by rw [foldlM_cons, hstep]; exact hrun, fun c => ?_⟩
      have hfirst : (EverySegment.countItem f (some q)).total c = f.total c + q.share c 1 :=
        total_countPacket { f with frames := f.frames + 1 } q c
      rw [hend, htotal, hfirst, foldl_cons, echoes]
      omega
    | none =>
      obtain ⟨s1, hstep, hlast, htotal⟩ := countLast_standing
        (s := { s with flows := { s.flows with frames := s.flows.frames + 1 } }) hs
      obtain ⟨s', hrun, hend⟩ := ih hlast (EverySegment.countItem f none)
      refine ⟨s', by rw [foldlM_cons]; exact (congrArg (· >>= _) hstep).trans hrun, fun c => ?_⟩
      have hsame : (EverySegment.countItem f none).total c = f.total c := rfl
      have hframes : ({ s.flows with frames := s.flows.frames + 1 } : Flows).total c =
        s.flows.total c := rfl
      rw [hend, htotal, hframes, hsame, foldl_cons, echoes]
      omega

theorem echoes_eq_zero (h : none ∉ items) : echoes c p k items = 0 := by
  induction items generalizing p k with
  | nil => rfl
  | cons item items ih =>
    cases item with
    | some q => exact ih (not_mem_of_not_mem_cons h)
    | none => exact absurd mem_cons_self h

/-- The two analyses of a capture agree on each connection up to the echoes of its packets. There
are none where every frame carries a packet, and a capture that starts with a frame without one is
refused by one of them only. -/
theorem sentBytes_eq_everySegment_add_echoes {frames : List Bytes}
    (h : frames.mapM packetOf = .ok items) :
    ∃ f, EverySegment.analyse frames = .ok f ∧ match items with
      | [] => SentBytes.analyse frames = .ok f
      | none :: _ => SentBytes.analyse frames = .error .noEarlierPacket
      | some p :: rest => ∃ g, SentBytes.analyse frames = .ok g ∧
        (∀ c, g.total c = f.total c + echoes c p 1 rest) ∧
        (none ∉ rest → ∀ c, g.total c = f.total c) := by
  refine ⟨_, EverySegment.analyse_eq h, ?_⟩
  rw [SentBytes.analyse_eq h]
  match items with
  | [] => rfl
  | none :: _ => rfl
  | some p :: rest =>
    obtain ⟨s, hstep, hlast, htotal⟩ := SentBytes.countItem_some {} p
    obtain ⟨s', hrun, hend⟩ :=
      SentBytes.foldlM_countItem rest hlast (EverySegment.countItem {} (some p))
    have htotals : ∀ c, s'.flows.total c =
        ((some p :: rest).foldl EverySegment.countItem {}).total c + echoes c p 1 rest := by
      intro c
      have hfirst : (EverySegment.countItem {} (some p)).total c = p.share c 1 :=
        (total_countPacket { frames := 1 } p c).trans (Int.zero_add _)
      have hzero : ({} : Flows).total c = 0 := rfl
      rw [hend, htotal, hfirst, foldl_cons, hzero]
      omega
    refine ⟨s'.flows, ?_, htotals, fun hall c => ?_⟩
    · rw [foldlM_cons, hstep]
      exact congrArg (Except.map _) hrun
    · rw [htotals, echoes_eq_zero hall, Int.add_zero]

/-! ## One entry for each connection -/

/-- The connection of the TCP segment in a frame, and the bytes that the segment carries. -/
def segmentOf (item : Option Packet) : Option (Connection × Int) := do
  let p ← item
  let s ← p.segment
  if p.protocol = tcp then some (p.connection s, p.size - 4 * s.headerWords) else none

/-- One sum for the sizes of segments, and none if there are none. -/
def gathered (sizes : List Int) : List Int :=
  if sizes.isEmpty then [] else [sizes.sum]

structure Flows.Counts (f : Flows) (segments : List (Connection × Int)) : Prop where
  flows : f.flows = f.table.length
  bytes : ∀ c, bytesFor f.table c = gathered (bytesFor segments c)

variable {segments : List (Connection × Int)}

theorem Flows.Counts.count (h : f.Counts segments) (c : Connection) (n : Int) :
    (EverySegment.count f c n).Counts (segments ++ [(c, n)]) := by
  obtain ⟨key, hkey, htable, hflows, hnew⟩ := EverySegment.count_spec f c n
  refine ⟨?_, fun d => ?_⟩
  · obtain ⟨t₁, t₂, ht, hput⟩ := f.table.exists_put_eq key ((f.table.get? key).getD 0 + n)
    have hlength := congrArg List.length ht
    rw [hflows, h.flows, htable, hput, hlength]
    cases f.table.get? key <;> simp
    omega
  · obtain ⟨ns₁, ns₂, hold, hput⟩ :=
      exists_bytesFor_put f.table key ((f.table.get? key).getD 0 + n) d
    have hbytes := hold.symm.trans (h.bytes d)
    have hsegments : bytesFor (segments ++ [(c, n)]) d =
        bytesFor segments d ++ (if d.Same key then [n] else []) := by
      rw [bytesFor_append, if_congr (hkey.same_iff d) rfl rfl]
      exact congrArg _ (bytesFor_map c [n])
    rw [htable, hput, hsegments]
    by_cases hd : d.Same key
    · cases hget : f.table.get? key with
      | none =>
        have hsame : c.Same d := (((hkey.same_iff d).mp hd).same_iff c).mp (.inl rfl)
        have hnone : bytesFor f.table d = [] := by
          refine map_eq_nil_iff.mpr (filter_eq_nil_iff.mpr fun entry hentry hentrySame => ?_)
          have hkeys := hnew hget entry.1 (((of_decide_eq_true hentrySame).same_iff c).mpr hsame)
          exact Table.get?_eq_none_iff.mp hkeys (mem_map_of_mem hentry)
        have hempty : bytesFor segments d = [] := by simpa [hnone, gathered] using h.bytes d
        simp_all [gathered]
      | some m =>
        have hfilled : bytesFor segments d ≠ [] := by
          intro hempty
          simp [hd, hget, hempty, gathered] at hbytes
        simp_all [gathered, append_eq_singleton_iff]
    · simpa [hd] using hbytes

theorem Flows.Counts.countItem (h : f.Counts segments) (item : Option Packet) :
    (EverySegment.countItem f item).Counts (segments ++ [item].filterMap segmentOf) := by
  have hnext : ({ f with frames := f.frames + 1 } : Flows).Counts segments := ⟨h.1, h.2⟩
  unfold EverySegment.countItem segmentOf
  cases item with
  | none => simpa using hnext
  | some p =>
    unfold countPacket
    by_cases htcp : p.protocol = tcp
    · cases hs : p.segment with
      | none => simpa [hs, htcp] using hnext
      | some s => simpa [hs, htcp] using hnext.count _ _
    · simpa [htcp] using hnext

theorem counts_foldl (items : List (Option Packet)) :
    (items.foldl EverySegment.countItem {}).Counts (items.filterMap segmentOf) := by
  induction items using List.reverseRecOn with
  | nil => exact ⟨rfl, fun _ => rfl⟩
  | append_singleton items item ih =>
    rw [foldl_append, filterMap_append]
    exact ih.countItem item

/-- If all frames can be read, the analysis has one entry, for both directions, for each connection
that has a segment, and no other. The entry holds the bytes of all segments of the connection, and
the order of the frames does not matter. -/
theorem one_entry_per_connection (h : frames.mapM packetOf = .ok items) :
    ∃ f, EverySegment.analyse frames = .ok f ∧ f.flows = f.table.length ∧
      (∀ c, bytesFor f.table c = gathered (bytesFor (items.filterMap segmentOf) c)) ∧
      ∀ frames' : List Bytes, frames' ~ frames → ∃ f', EverySegment.analyse frames' = .ok f' ∧
        ∀ c, bytesFor f'.table c = bytesFor f.table c := by
  have hcounts := counts_foldl items
  refine ⟨_, EverySegment.analyse_eq h, hcounts.flows, hcounts.bytes, fun frames' hperm => ?_⟩
  obtain ⟨items', hread, hitems⟩ := perm_comp_forall₂ hperm (mapM_eq_ok_iff.mp h)
  refine ⟨_, EverySegment.analyse_eq (mapM_eq_ok_iff.mpr hread), fun c => ?_⟩
  have hbytes : bytesFor (items'.filterMap segmentOf) c ~ bytesFor (items.filterMap segmentOf) c :=
    ((hitems.filterMap segmentOf).filter _).map _
  rw [hcounts.bytes, (counts_foldl items').bytes, gathered, gathered, hbytes.isEmpty_eq,
    hbytes.sum_eq]

/-- A segment with one byte of text. -/
def letterFrame : Bytes :=
  .replicate 12 0 ++ [8, 0, 0x45, 0, 0, 41] ++ .replicate 5 0 ++ [6, 0, 0, 10, 0, 0, 1, 10, 0, 0, 2]
    ++ [3, 232, 0, 80] ++ .replicate 8 0 ++ [0x50] ++ .replicate 7 0 ++ [104]

def resolutionFrame : Bytes :=
  .replicate 12 0 ++ [8, 6]

def letterConnection : Connection :=
  ⟨0x0a000001, 0x0a000002, 1000, 80⟩

def letterPacket : Packet :=
  { source := .ofNat .v4 0x0a000001, target := .ofNat .v4 0x0a000002, protocol := tcp
    total := 41, size := 21, segment := some ⟨1000, 80, 5⟩ }

/-- The segment in the other direction. -/
def answerFrame : Bytes :=
  letterFrame.take 26 ++ [10, 0, 0, 2, 10, 0, 0, 1, 0, 80, 3, 232] ++ letterFrame.drop 38

def answerPacket : Packet :=
  { letterPacket with
    source := letterPacket.target, target := letterPacket.source, segment := some ⟨80, 1000, 5⟩ }

theorem one_entry_per_connection_letter :
    [letterFrame, resolutionFrame, answerFrame].mapM packetOf =
        .ok [some letterPacket, none, some answerPacket] ∧
      ∃ f, EverySegment.analyse [letterFrame, resolutionFrame, answerFrame] = .ok f ∧
        f.flows = f.table.length ∧ bytesFor f.table letterConnection = [2] := by
  have hread : [letterFrame, resolutionFrame, answerFrame].mapM packetOf =
      .ok [some letterPacket, none, some answerPacket] := by
    set_option maxRecDepth 4000 in rfl
  obtain ⟨f, hf, hflows, hbytes, -⟩ := one_entry_per_connection hread
  exact ⟨hread, f, hf, hflows, (hbytes letterConnection).trans rfl⟩

theorem sentBytes_eq_everySegment_add_echoes_letter :
    [letterFrame, resolutionFrame].mapM packetOf = .ok [some letterPacket, none] ∧
      ∃ f g, EverySegment.analyse [letterFrame, resolutionFrame] = .ok f ∧
        SentBytes.analyse [letterFrame, resolutionFrame] = .ok g ∧
        ∀ c, g.total c = f.total c + echoes c letterPacket 1 [none] := by
  have hread : [letterFrame, resolutionFrame].mapM packetOf = .ok [some letterPacket, none] := by
    set_option maxRecDepth 4000 in rfl
  obtain ⟨f, hf, g, hg, htotal, -⟩ := sentBytes_eq_everySegment_add_echoes hread
  exact ⟨hread, f, g, hf, hg, htotal⟩

/-- The byte is counted once by the one analysis; the other goes below zero. -/
theorem totals_differ_behind_resolution :
    (EverySegment.analyse [letterFrame, resolutionFrame]).map (Flows.total · letterConnection) =
        .ok 1 ∧
      (SentBytes.analyse [letterFrame, resolutionFrame]).map (Flows.total · letterConnection) =
        .ok (-18) := by
  set_option maxRecDepth 4000 in exact ⟨rfl, rfl⟩

end Practicum.Net.Capture
