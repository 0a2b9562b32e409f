import AmClient.Application.EndToEnd
import AmClient.Client.Contents

/-!
# What the receivers read

From the calls to the values: the packets of the datagrams, and the frames of a TCP
connection, are read by a receiver as the addresses and values of the calls, in their order.
-/

namespace AmClient.Application
open Foundation Osc Client
set_option autoImplicit false

variable {decibels : BitVec 32 → Decibels}

theorem says_unique {ms : List Bytes} {ps qs : List Packet} (hps : List.Forall₂ Says ms ps)
    (hqs : List.Forall₂ Says ms qs) : ps = qs := by
  induction hps generalizing qs with
  | nil => exact (List.forall₂_nil_left_iff.mp hqs).symm
  | cons hm _ ih =>
    obtain ⟨q, qs, hq, hrest, rfl⟩ := List.forall₂_cons_left_iff.mp hqs
    rw [ih hrest, Option.some.inj (hm.decode.symm.trans hq.decode)]

/-- What a receiver reads from a connection, as long as no write follows a short one: of
these packets, in order; `is` are their numbers. -/
def ConnectionsSay (trace : List (State × Event)) (s : State) (all : List Packet) : Prop :=
  ThreadsCreated (tcpPart trace) →
    (∀ p ∈ Lifecycle.tcpSteps (tcpPart trace), Tcp.KeepsUp p.1 p.2) →
      ∀ c ∈ s.tcp.client.conns, ∃ is : List Nat, is.Pairwise (· ≤ ·) ∧ (∀ i ∈ is, i < all.length) ∧
        (deframe c.accepted).1.map Packet.decode = is.map fun i => all[i]?

theorem decoded_of_said {ms : List Bytes} {ps : List Packet} (h : List.Forall₂ Says ms ps) :
    ms.map Packet.decode = ps.map some := by
  induction h with
  | nil => rfl
  | cons hm _ ih => rw [List.map_cons, List.map_cons, hm.decode, ih]

/-- The frames that a receiver reads say what the calls with their numbers say. -/
theorem Reads.values {all : List Bytes} {ps : List Packet} {c : Tcp.Conn} (h : Reads all c)
    (hsaid : List.Forall₂ Says all ps) :
    ∃ is : List Nat, is.Pairwise (· ≤ ·) ∧ (∀ i ∈ is, i < ps.length) ∧
      (deframe c.accepted).1.map Packet.decode = is.map fun i => ps[i]? := by
  obtain ⟨is, horder, hlt, rest, hread, _⟩ := h
  rw [hsaid.length_eq] at hlt
  have hdecode : ∀ i < ps.length, Packet.decode (all.getD i []) = ps[i]? := by
    intro i hi
    have hall : i < all.length := by
      rw [hsaid.length_eq]
      exact hi
    have hsay := (List.forall₂_iff_get.mp hsaid).2 i hall hi
    rw [List.getD_eq_getElem?_getD, List.getElem?_eq_getElem hall, List.getElem?_eq_getElem hi]
    exact hsay.decode
  generalize (deframe c.accepted).1 = ms at hread ⊢
  have htake := congrArg (List.take ms.length) hread
  rw [List.take_left, ← List.map_take] at htake
  refine ⟨is.take ms.length, horder.take, fun i hi => hlt i (List.mem_of_mem_take hi), ?_⟩
  nth_rewrite 1 [← htake]
  rw [List.map_map]
  apply List.map_congr_left
  intro i hi
  exact hdecode i (hlt i (List.mem_of_mem_take hi))

section
variable {baseAddress : Bytes} {trace : List (State × Event)} {s : State}
  (h : Run (step decibels) (init baseAddress) trace s)
include h

theorem connections_say {ps : List Packet}
    (hsaid : List.Forall₂ Says (routedTcp decibels (callSteps trace)) ps) :
    ConnectionsSay trace s ps := by
  intro hcreated hkeeps c hc
  exact (connections_read h hcreated hkeeps c hc).values hsaid

end

end AmClient.Application
