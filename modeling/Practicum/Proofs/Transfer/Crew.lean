import Mathlib.Logic.Relation
import Practicum.Proofs.Transfer.FilePackets

/-!
# Senders at work

The three threads of a sender run side by side. Each of them repeats a section, which no other
thread can interrupt, and tests before it whether the sender has finished; between the test and the
section the others may run, so that a section may still follow when the sender has finished.
-/

namespace Practicum.Net.Transfer

/-- Where a thread stands: before the test of its loop, before its section, or behind its loop. -/
inductive Phase where
  | testing
  | inside
  | left
  deriving DecidableEq, Repr

def Phase.afterTest (finished : Bool) : Phase :=
  if finished then .left else .inside

theorem Phase.inside_of_not {finished : Bool} (h : finished = false) : afterTest finished = .inside := by
  rw [h]
  rfl

structure Crew (σ : Type) where
  sender : σ
  sending : Phase := .testing
  resending : Phase := .testing
  listening : Phase := .testing

namespace Crew

variable {σ : Type}

def Left (c : Crew σ) : Prop :=
  c.sending = .left ∧ c.resending = .left ∧ c.listening = .left

/-- The crew after its listener has got an answer, or no answer and an error in its place. -/
def afterListening (c : Crew σ) (w : Watched σ) : Crew σ :=
  { c with
    sender := w.state
    listening := if w.ended || w.error.isSome then .left else .testing }

/-- One step of a thread: the number that it hears from the network, if it does, and the numbers of
the packets that it sends. -/
inductive Step (t : Threads σ) : Crew σ → Option Nat → Crew σ → List Nat → Prop
  | testSending (c : Crew σ) (h : c.sending = .testing) :
      Step t c none { c with sending := .afterTest (t.finished c.sender) } []
  | testResending (c : Crew σ) (h : c.resending = .testing) :
      Step t c none { c with resending := .afterTest (t.finished c.sender) } []
  | testListening (c : Crew σ) (h : c.listening = .testing) :
      Step t c none { c with listening := .afterTest (t.finished c.sender) } []
  | send (c : Crew σ) (now : Int) (h : c.sending = .inside) :
      Step t c none { c with sender := (t.sendNext now c.sender).1, sending := .testing }
        (t.sendNext now c.sender).2
  | resend (c : Crew σ) (now : Int) (h : c.resending = .inside) :
      Step t c none { c with sender := (t.resend now c.sender).1, resending := .testing }
        (t.resend now c.sender).2
  | silence (c : Crew σ) (now : Int) (h : c.listening = .inside) :
      Step t c none (c.afterListening (t.listen now [none] c.sender)) []
  | hear (c : Crew σ) (now : Int) (number : Nat) (h : c.listening = .inside) :
      Step t c (some number) (c.afterListening (t.listen now [some number] c.sender)) []

end Crew

def packetsAt (packets : List Bytes) (numbers : List Nat) : List Bytes :=
  numbers.filterMap fun i => packets[i]?

@[simp]
theorem packetsAt_nil (packets : List Bytes) : packetsAt packets [] = [] := rfl

theorem packetsAt_singleton {file : Bytes} {i : Nat} (hi : i < packetCount file) :
    packetsAt (numberedPackets file) [i] = [numberedPacket file i] := by
  simp [packetsAt, getElem?_numberedPackets, hi]

theorem mem_packetsAt {file : Bytes} {numbers : List Nat} {packet : Bytes} :
    packet ∈ packetsAt (numberedPackets file) numbers ↔
      ∃ i ∈ numbers, i < packetCount file ∧ packet = numberedPacket file i := by
  simp only [packetsAt, List.mem_filterMap, getElem?_numberedPackets,
    Option.ite_none_right_eq_some, Option.some.injEq]
  simp only [eq_comm]

/-! ## Runs for a file -/

/-- What the steps of two programs can lead to if the sender has the packets of a file. There is no
run if the packets cannot be built. -/
def RunsTo {α : Type} (step : List Bytes → α → α → Prop) (start : Nat → α) (file : Bytes)
    (s : α) : Prop :=
  ∃ packets, filePackets file = .ok packets ∧
    Relation.ReflTransGen (step packets) (start packets.length) s

namespace RunsTo

variable {α : Type} {step : List Bytes → α → α → Prop} {start : Nat → α} {file : Bytes} {s t : α}

theorem refl (hfits : packetCount file ≤ 65536) :
    RunsTo step start file (start (packetCount file)) := by
  refine ⟨numberedPackets file, (filePackets_eq_ok_iff file _).mpr ⟨hfits, rfl⟩, ?_⟩
  rw [length_numberedPackets]

variable (h : RunsTo step start file s)
include h

theorem fits : packetCount file ≤ 65536 := by
  obtain ⟨packets, hpackets, -⟩ := h
  exact ((filePackets_eq_ok_iff file packets).mp hpackets).1

theorem tail (hst : step (numberedPackets file) s t) : RunsTo step start file t := by
  obtain ⟨packets, hpackets, hrun⟩ := h
  obtain ⟨-, rfl⟩ := (filePackets_eq_ok_iff file packets).mp hpackets
  exact ⟨_, hpackets, hrun.tail hst⟩

theorem invariant {P : α → Prop} (hstart : P (start (packetCount file)))
    (hstep : ∀ s t, RunsTo step start file s → P s → step (numberedPackets file) s t → P t) :
    P s := by
  obtain ⟨packets, hpackets, hrun⟩ := h
  obtain ⟨-, rfl⟩ := (filePackets_eq_ok_iff file packets).mp hpackets
  rw [length_numberedPackets] at hrun
  induction hrun with
  | refl => exact hstart
  | tail hrun hst ih =>
    refine hstep _ _ ⟨_, hpackets, ?_⟩ ih hst
    rw [length_numberedPackets]
    exact hrun

end RunsTo

end Practicum.Net.Transfer
