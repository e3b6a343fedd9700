import Practicum.Proofs.Switch.Handling

/-!
# The public ports of a gateway

Ports come from two sources: a counter that wraps, and the entries that have expired. The ports of a
table with `n` entries are nevertheless the numbers from 1 to `n`, each of them once, and the counter
stands at `n + 1`. So the counter never wraps, no port is shared, and a new connection is refused
exactly if the table is full of entries in use.
-/

namespace Practicum.Net.Switch

open Packet List Table Frame

variable {table before behind : Table Connection Entry} {c : Connection} {e : Entry} {tcp : Tcp}
  {f : Frame}

namespace Gateway

def ports (t : Gateway) : List Int :=
  t.table.values.map Entry.publicPort

/-- Each connection has one entry, and the ports of the entries are 1, 2 and so on up to their
number, in some order. -/
structure Allotted (t : Gateway) : Prop where
  keys : t.table.keys.Nodup
  ports : t.ports.Nodup
  range : ∀ p ∈ t.ports, 1 ≤ p ∧ p ≤ t.table.length
  next : t.nextPort = t.table.length + 1
  room : t.table.length ≤ 65000
  capacity : t.capacity = 65000

theorem allotted_initial : initial.Allotted where
  keys := nodup_nil
  ports := nodup_nil
  range := by simp [Gateway.ports, values, initial]
  next := rfl
  room := by simp [initial]
  capacity := rfl

/-! ## New connections -/

def newEntry (c : Connection) (inPort publicPort : Int) : Entry :=
  { publicPort, privateIp := c.privateIp, privatePort := c.privatePort, inPort }

theorem takeExpired_cases (table : Table Connection Entry) :
    (∀ entry ∈ table, entry.2.expired = false) ∧ takeExpired table = (none, table) ∨
      ∃ before c e behind, table = before ++ (c, e) :: behind ∧ e.expired = true ∧
        takeExpired table = (some e, before ++ behind) := by
  induction table with
  | nil => exact .inl ⟨by simp, rfl⟩
  | cons entry table ih =>
    cases he : entry.2.expired with
    | true => exact .inr ⟨[], entry.1, entry.2, table, rfl, he, by simp [takeExpired, he]⟩
    | false =>
      obtain ⟨hall, htake⟩ | ⟨before, c, e, behind, rfl, hexpired, htake⟩ := ih
      · exact .inl ⟨forall_mem_cons.mpr ⟨he, hall⟩, by simp [takeExpired, he, htake]⟩
      · exact .inr ⟨entry :: before, c, e, behind, rfl, hexpired, by simp [takeExpired, he, htake]⟩

/-- What becomes of a new connection: it is refused by a table full of entries in use, gets the next
port, or gets the port of the first expired entry, which loses its place. -/
inductive Connects (t : Gateway) (c : Connection) (inPort : Int) : Gateway × Option Entry → Prop
  | refused (hused : ∀ entry ∈ t.table, entry.2.expired = false) (hfull : t.table.length = 65000) :
      Connects t c inPort (t, none)
  | extended (hused : ∀ entry ∈ t.table, entry.2.expired = false) (hroom : t.table.length < 65000) :
      Connects t c inPort ({ t with
            table := t.table ++ [(c, newEntry c inPort t.nextPort)], nextPort := t.nextPort + 1 },
          some (newEntry c inPort t.nextPort))
  | handedOver (before : Table Connection Entry) (old : Connection) (e : Entry)
      (behind : Table Connection Entry) (htable : t.table = before ++ (old, e) :: behind)
      (hexpired : e.expired = true) :
      Connects t c inPort
        ({ t with table := before ++ behind ++ [(c, newEntry c inPort e.publicPort)] },
          some (newEntry c inPort e.publicPort))

variable {old : Connection} {t : Gateway} {data : Bytes} {ip : Ipv4} {inPort : Int}

theorem perm_of_eq (h : table = before ++ (old, e) :: behind) :
    table.Perm ((old, e) :: (before ++ behind)) := by
  rw [h]
  exact perm_middle

theorem get?_eq_none_of_eq (h : table = before ++ (old, e) :: behind) (hnew : table.get? c = none) :
    get? (before ++ behind) c = none := by
  rw [get?_eq_none_iff] at hnew ⊢
  intro hmem
  apply hnew
  rw [Table.keys, ((perm_of_eq h).map Prod.fst).mem_iff]
  exact mem_cons_of_mem _ hmem

theorem connect_connects (h : t.Allotted) (hnew : t.table.get? c = none) (inPort : Int) :
    Connects t c inPort (t.connect c inPort) := by
  have hnext := h.next
  have hroom := h.room
  have hcapacity := h.capacity
  obtain ⟨hused, htake⟩ | ⟨before, old, e, behind, htable, hexpired, htake⟩ :=
    takeExpired_cases t.table
  · by_cases hfull : t.table.length = 65000
    · have hle : t.capacity ≤ t.table.length := by omega
      have hconnect : t.connect c inPort = (t, none) := by
        simp [connect, htake, hle]
      rw [hconnect]
      exact .refused hused hfull
    · have hfree : ¬ t.capacity ≤ t.table.length := by omega
      have hwrap : t.nextPort % 65535 + 1 = t.nextPort + 1 := by omega
      have hconnect : t.connect c inPort = ({ t with
              table := t.table ++ [(c, newEntry c inPort t.nextPort)], nextPort := t.nextPort + 1 },
            some (newEntry c inPort t.nextPort)) := by
        simp [connect, htake, hfree, freshPort, hwrap, put_of_get?_eq_none hnew, newEntry]
      rw [hconnect]
      exact .extended hused (by omega)
  · have hlength : t.table.length = before.length + behind.length + 1 := by
      rw [htable, length_append, length_cons]
      omega
    have hfree : ¬ t.capacity ≤ before.length + behind.length := by omega
    have hport : 0 ≤ e.publicPort := by
      have hmem : e.publicPort ∈ t.ports := by
        rw [ports, htable]
        simp [values]
      have hrange := h.range _ hmem
      omega
    have hput : put (before ++ behind) c (newEntry c inPort e.publicPort) =
        before ++ behind ++ [(c, newEntry c inPort e.publicPort)] :=
      put_of_get?_eq_none (get?_eq_none_of_eq htable hnew) _
    have hconnect : t.connect c inPort =
        ({ t with table := before ++ behind ++ [(c, newEntry c inPort e.publicPort)] },
          some (newEntry c inPort e.publicPort)) := by
      rw [← hput]
      simp [connect, htake, hfree, freshPort, hport, newEntry]
    rw [hconnect]
    exact .handedOver before old e behind htable hexpired

theorem nodup_keys_append (h : table.keys.Nodup) (hnew : table.get? c = none) :
    keys (table ++ [(c, e)]) |>.Nodup := by
  rw [Table.keys, map_append, map_singleton, (perm_append_singleton _ _).nodup_iff]
  exact nodup_cons.mpr ⟨get?_eq_none_iff.mp hnew, h⟩

/-! ## What every event keeps -/

@[simp]
theorem keys_mark (t : Gateway) (c : Connection) (expired : Bool) :
    (t.mark c expired).table.keys = t.table.keys :=
  map_update (f := fun e => { e with expired }) t.table c fun _ => rfl

namespace Allotted

variable {t : Gateway}

variable (h : t.Allotted)
include h

theorem of_perm (hkeys : table.keys.Nodup)
    (hports : t.ports.Perm (Gateway.ports { t with table })) : Allotted { t with table } := by
  have hlength : t.table.length = table.length := by
    simpa [Gateway.ports, values] using hports.length_eq
  refine ⟨hkeys, hports.nodup h.ports, fun p hp => ?_, ?_, ?_, h.capacity⟩ <;> rw [← hlength]
  · exact h.range p (hports.mem_iff.mpr hp)
  · exact h.next
  · exact h.room

theorem mark (c : Connection) (expired : Bool) : (t.mark c expired).Allotted := by
  refine h.of_perm (t.keys_mark c expired ▸ h.keys) (.of_eq ?_)
  simp only [Gateway.ports, values, map_map]
  exact (map_update (f := fun e => { e with expired }) t.table c fun _ => rfl).symm

theorem extend (hnew : t.table.get? c = none) (inPort : Int)
    (hroom : t.table.length < 65000) : Allotted { t with
      table := t.table ++ [(c, newEntry c inPort t.nextPort)], nextPort := t.nextPort + 1 } := by
  have hnext := h.next
  have hports : Gateway.ports { t with
      table := t.table ++ [(c, newEntry c inPort t.nextPort)], nextPort := t.nextPort + 1 } =
      t.ports ++ [t.nextPort] := by
    simp [Gateway.ports, values, newEntry]
  have hlength : (t.table ++ [(c, newEntry c inPort t.nextPort)]).length = t.table.length + 1 := by
    simp
  refine { keys := ?_, ports := ?_, range := ?_, next := ?_, room := ?_, capacity := h.capacity }
  · exact nodup_keys_append h.keys hnew
  · rw [hports, (perm_append_singleton _ _).nodup_iff]
    refine nodup_cons.mpr ⟨fun hmem => ?_, h.ports⟩
    have hrange := h.range _ hmem
    omega
  · intro p hp
    rw [hports, mem_append, mem_singleton] at hp
    rw [hlength]
    rcases hp with hp | rfl
    · have hrange := h.range p hp
      omega
    · omega
  · show t.nextPort + 1 = _
    rw [hlength]
    omega
  · rw [hlength]
    omega

theorem handOver (hnew : t.table.get? c = none) (inPort : Int)
    (htable : t.table = before ++ (old, e) :: behind) :
    Allotted { t with table := before ++ behind ++ [(c, newEntry c inPort e.publicPort)] } := by
  have hperm := perm_of_eq htable
  have hkeys : t.table.keys.Perm (old :: Table.keys (before ++ behind)) := hperm.map Prod.fst
  refine h.of_perm (nodup_keys_append (nodup_cons.mp (hkeys.nodup h.keys)).2
    (get?_eq_none_of_eq htable hnew)) ?_
  -- The ports are the old ones: the port that one entry loses another one gets.
  refine ((hperm.map Prod.snd).map Entry.publicPort).trans ?_
  simp only [Gateway.ports, Table.values, map_append, map_cons]
  exact (perm_append_singleton _ _).symm

theorem entryFor (c : Connection) (inPort : Int) : (t.entryFor c inPort).1.Allotted := by
  cases hget : t.table.get? c with
  | some e =>
    simp only [Gateway.entryFor, revive, hget]
    exact h.mark c false
  | none =>
    simp only [Gateway.entryFor, revive, hget]
    have hconnects := connect_connects h hget inPort
    generalize t.connect c inPort = result at hconnects
    cases hconnects with
    | refused hused _ => exact h
    | extended hused hroom => exact h.extend hget inPort hroom
    | handedOver _ _ e _ htable _ => exact h.handOver hget inPort htable

theorem handle (e : Event) : (t.handle e).state.Allotted := by
  rcases t.handle_cases e with hsame | ⟨c, hmark⟩ | ⟨c, inPort, hentry⟩
  · rw [hsame]
    exact h
  · rw [hmark]
    exact h.mark c true
  · rw [hentry]
    exact h.entryFor c inPort

end Allotted

theorem allotted_after (events : List Event) : (initial.after events).Allotted :=
  after_invariant allotted_initial (fun _ e h => h.handle e) events

/-! ## Refusals -/

theorem innerMac_after (events : List Event) :
    (initial.after events).innerMac = initial.innerMac := by
  obtain ⟨_, _, hafter⟩ := initial.exists_after_eq events
  rw [hafter]

theorem sized_of_frame (h : read? data = some f) (hip : f.ip = some ip)
    (htcp : f.tcp = some tcp) : Segment.Sized ⟨f.ethernet, ip, tcp, f.payload⟩ := by
  refine Segment.sized_of_read? (?_ : Segment.read? data = _)
  simp [Segment.read?, h, hip, htcp]

theorem packetIn_eq_passThrough (t : Gateway) (inPort : Int) (h : read? data = some f)
    (hip : f.ip = some ip) (htcp : f.tcp = some tcp) :
    t.packetIn inPort data = t.passThrough inPort f.ethernet ip tcp := by
  have htype : f.ethernet.type ≠ typeArp := by
    rw [(sized_of_frame h hip htcp).type]
    decide
  simp only [packetIn, h, if_neg htype, hip, htcp]

theorem exists_reset (hmac : t.innerMac = initial.innerMac) (h : read? data = some f)
    (hip : f.ip = some ip) (htcp : f.tcp = some tcp) :
    ∃ rst, t.reset f.ethernet ip tcp = .ok rst := by
  obtain ⟨hsource, htarget⟩ := (sized_of_frame h hip htcp).ports
  simp only at hsource htarget
  simp [reset, hmac, initial, writeSegment, Tcp.write, Tcp.bytesWith, word, if_pos hsource,
    if_pos htarget, bind, Except.bind, pure, Except.pure, Ipv4.write, Envelope.write,
    Envelope.ethernet, WrittenMac.ofMac]

def Full (t : Gateway) : Prop :=
  t.table.length = 65000 ∧ ∀ entry ∈ t.table, entry.2.expired = false

theorem state_passThrough_new (e : Ethernet) (hport : inPort ≠ outerPort)
    (hnew : t.table.get? (connectionOf ip tcp) = none) :
    (t.passThrough inPort e ip tcp).state = (t.connect (connectionOf ip tcp) inPort).1 := by
  simp only [passThrough, if_neg hport, entryFor, revive, hnew]
  rcases t.connect (connectionOf ip tcp) inPort with ⟨t', _ | _⟩
  · exact t'.state_refuse inPort e ip tcp
  · exact t'.state_dispatch _

theorem passThrough_new (h : t.Allotted) (e : Ethernet) (hport : inPort ≠ outerPort)
    (hnew : t.table.get? (connectionOf ip tcp) = none) :
    (t.Full ∧ t.passThrough inPort e ip tcp = t.refuse inPort e ip tcp) ∨
      ¬ t.Full ∧ ∃ entry, entry.expired = false ∧
        (t.passThrough inPort e ip tcp).state.table.get? (connectionOf ip tcp) = some entry := by
  have hlast : ∀ {table : Table Connection Entry} {entry : Entry},
      table.get? (connectionOf ip tcp) = none →
      get? (table ++ [(connectionOf ip tcp, entry)]) (connectionOf ip tcp) = some entry := by
    intro table entry hnone
    rw [← put_of_get?_eq_none hnone, get?_put, if_pos rfl]
  rw [state_passThrough_new e hport hnew]
  have hconnects := connect_connects h hnew inPort
  generalize hresult : t.connect (connectionOf ip tcp) inPort = result at hconnects
  cases hconnects with
  | refused hused hfull =>
    left
    simp only [passThrough, if_neg hport, entryFor, revive, hnew, hresult]
    exact ⟨⟨hfull, hused⟩, trivial⟩
  | extended hused _ =>
    exact .inr ⟨fun hfull => absurd hfull.1 (by omega), _, rfl, hlast hnew⟩
  | handedOver _ old e _ htable hexpired =>
    refine .inr ⟨fun hfull => ?_, _, rfl, hlast (get?_eq_none_of_eq htable hnew)⟩
    have hused := hfull.2 (old, e) (by rw [htable]; simp)
    rw [hexpired] at hused
    cases hused

/-- After any events the public ports are pairwise distinct and at most 65000, the counter stands
behind the number of entries, and a new connection from inside is refused exactly by a full table;
any other table has an entry for it afterwards. -/
theorem ports_nodup_and_refused_iff_full (events : List Event) :
    (initial.after events).ports.Nodup ∧
    (∀ p ∈ (initial.after events).ports, 1 ≤ p ∧ p ≤ 65000) ∧
    (initial.after events).nextPort = (initial.after events).table.length + 1 ∧
    (initial.after events).table.length ≤ 65000 ∧
    ∀ (inPort : Int) (data : Bytes) (f : Frame) (ip : Ipv4) (tcp : Tcp),
      inPort ≠ outerPort → Frame.read? data = some f → f.ip = some ip → f.tcp = some tcp →
      (initial.after events).table.get? (connectionOf ip tcp) = none →
      ((((initial.after events).packetIn inPort data).state.table = (initial.after events).table ∧
          ∃ rst, (initial.after events).reset f.ethernet ip tcp = .ok rst ∧
            ((initial.after events).packetIn inPort data).sent = [sendOut inPort rst]) ↔
        (initial.after events).Full) ∧
      (¬ (initial.after events).Full → ∃ entry, entry.expired = false ∧
        ((initial.after events).packetIn inPort data).state.table.get? (connectionOf ip tcp) =
          some entry) := by
  have hmac := innerMac_after events
  have h := allotted_after events
  generalize initial.after events = t at hmac h
  have hrange : ∀ p ∈ t.ports, 1 ≤ p ∧ p ≤ 65000 := by
    intro p hp
    have hle := h.range p hp
    have hroom := h.room
    omega
  refine ⟨h.ports, hrange, h.next, h.room, ?_⟩
  intro inPort data f ip tcp hport hread hip htcp hnew
  rw [packetIn_eq_passThrough t inPort hread hip htcp]
  rcases passThrough_new h f.ethernet hport hnew with
    ⟨hfull, hrefuse⟩ | ⟨hnot, entry, hused, hentry⟩
  · obtain ⟨rst, hrst⟩ := exists_reset hmac hread hip htcp
    have hsent : (t.refuse inPort f.ethernet ip tcp).sent = [sendOut inPort rst] := by
      rw [refuse, hrst]
      rfl
    rw [hrefuse, state_refuse]
    exact ⟨iff_of_true ⟨rfl, rst, hrst, hsent⟩ hfull, fun hnot => absurd hfull hnot⟩
  · refine ⟨iff_of_false (fun hsame => ?_) hnot, fun _ => ⟨entry, hused, hentry⟩⟩
    rw [hsame.1, hnew] at hentry
    cases hentry

/-! ## A full table -/

def openingSegment : Bytes :=
  [4, 0, 0, 80, 0, 0, 0, 0, 0, 0, 0, 0, 0x50, 2, 0, 0, 0, 0, 0, 0]

def opening (a b : UInt8) : Bytes :=
  [0, 0, 0, 0, 0, 0x10, 0, 0, 0, 0, 0, 2, 8, 0,
    0x45, 0, 0, 40, 0, 0, 0, 0, 64, 6, 0, 0, 10, 0, a, b, 10, 0, 1, 100] ++ openingSegment

def openingIp (a b : UInt8) : Ipv4 :=
  { total := 40, hops := 64, protocol := protocolTcp, source := .ofBytes [10, 0, a, b]
    target := .ofBytes [10, 0, 1, 100] }

def openingTcp : Tcp :=
  { sourcePort := 1024, targetPort := 80, headerWords := 5, flags := 2 }

theorem exists_read?_opening (a b : UInt8) :
    ∃ f, read? (opening a b) = some f ∧ f.ip = some (openingIp a b) ∧ f.tcp = some openingTcp := by
  have hreadable : readable 14 (opening a b) = true := rfl
  have htype : (opening a b).number 12 2 = typeIpv4 := rfl
  have hnotArp : typeIpv4 ≠ typeArp := by decide
  have hip : Ipv4.read? ((opening a b).drop 14) = some (openingIp a b, openingSegment) := by
    have hreadable : readable 20 ((opening a b).drop 14) = true := rfl
    have hwords : Bytes.number 0 1 ((opening a b).drop 14) = 0x45 := rfl
    have htotal : Bytes.number 2 2 ((opening a b).drop 14) = 40 := rfl
    simp only [Ipv4.read?, hwords]
    rfl
  simp only [read?, if_pos hreadable, htype, withPacket, hip, withTcp]
  exact ⟨_, rfl, rfl, rfl⟩

def hostConnection (k : Nat) : Connection :=
  connectionOf (openingIp (.ofNat (k / 256)) (.ofNat k)) openingTcp

theorem hostConnection_injective {j k : Nat} (hj : j < 65536) (hk : k < 65536)
    (h : hostConnection j = hostConnection k) : j = k := by
  have hvalue : ∀ i < 65536,
      (Address.ofBytes [10, 0, .ofNat (i / 256), .ofNat i]).value = 167772160 + i := by
    intro i hi
    have hten : UInt8.toNat 10 = 10 := rfl
    have hzero : UInt8.toNat 0 = 0 := rfl
    simp only [Address.ofBytes, Address.ofNat, Bytes.toNat, Family.bits, foldl_cons,
      foldl_nil, UInt8.toNat_ofNat', Nat.pow_eq, hten, hzero]
    omega
  simp only [hostConnection, connectionOf, openingIp, Connection.mk.injEq, FieldValue.address.injEq,
    and_true] at h
  have hboth := congrArg Address.value h
  rw [hvalue j hj, hvalue k hk] at hboth
  omega

theorem get?_hostConnection_eq_none {n : Nat} (hn : n < 65536)
    (h : ∀ entry ∈ table, ∃ k < n, entry.1 = hostConnection k) :
    table.get? (hostConnection n) = none := by
  rw [get?_eq_none_iff]
  intro hmem
  obtain ⟨entry, hentry, hkey⟩ := mem_map.mp hmem
  obtain ⟨k, _, hhost⟩ := h entry hentry
  have hsame := hostConnection_injective (by omega) hn (hhost.symm.trans hkey)
  omega

/-- There is a run to a table of any number of entries that fit, all of them in use. -/
theorem exists_used (n : Nat) (hn : n ≤ 65000) : ∃ events, (initial.after events).table.length = n ∧
      (∀ entry ∈ (initial.after events).table, entry.2.expired = false) ∧
      ∀ entry ∈ (initial.after events).table, ∃ k < n, entry.1 = hostConnection k := by
  induction n with
  | zero => exact ⟨[], rfl, by simp [after, initial], by simp [after, initial]⟩
  | succ n ih =>
    obtain ⟨events, hlength, hused, hhosts⟩ := ih (by omega)
    obtain ⟨f, hread, hip, htcp⟩ := exists_read?_opening (.ofNat (n / 256)) (.ofNat n)
    have hnew := get?_hostConnection_eq_none (by omega) hhosts
    refine ⟨events ++ [.packet 2 (opening (.ofNat (n / 256)) (.ofNat n))], ?_⟩
    rw [after_concat, handle, packetIn_eq_passThrough _ 2 hread hip htcp,
      state_passThrough_new f.ethernet (by decide) hnew]
    have hconnects := connect_connects (allotted_after events) hnew 2
    rw [hostConnection] at hconnects
    generalize (initial.after events).connect _ 2 = result at hconnects
    cases hconnects with
    | refused _ _ => omega
    | handedOver _ old e _ htable hexpired =>
      have hin := hused (old, e) (by rw [htable]; simp)
      rw [hexpired] at hin
      cases hin
    | extended _ _ =>
      refine ⟨by simp [hlength], ?_, ?_⟩
      · intro entry hentry
        rcases mem_append.mp hentry with hold | hlast
        · exact hused entry hold
        · rw [mem_singleton.mp hlast]
          rfl
      · intro entry hentry
        rcases mem_append.mp hentry with hold | hlast
        · obtain ⟨k, _, hhost⟩ := hhosts entry hold
          exact ⟨k, by omega, hhost⟩
        · rw [mem_singleton.mp hlast]
          exact ⟨n, by omega, rfl⟩

/-- The 65001st connection is refused if none of those before it has expired. -/
theorem refused_of_full : ∃ events rst, (initial.after events).Full ∧
      ((initial.after events).packetIn 2 (opening 253 232)).state.table =
        (initial.after events).table ∧
      ((initial.after events).packetIn 2 (opening 253 232)).sent = [sendOut 2 rst] := by
  obtain ⟨events, hlength, hused, hhosts⟩ := exists_used 65000 (Nat.le_refl _)
  obtain ⟨f, hread, hip, htcp⟩ := exists_read?_opening 253 232
  have hnew := get?_hostConnection_eq_none (by decide) hhosts
  have hrefused := ((ports_nodup_and_refused_iff_full events).2.2.2.2 2 _ f _ _ (by decide) hread
    hip htcp hnew).1.mpr ⟨hlength, hused⟩
  obtain ⟨hsame, rst, -, hsent⟩ := hrefused
  exact ⟨events, rst, ⟨hlength, hused⟩, hsame, hsent⟩

end Gateway

end Practicum.Net.Switch
