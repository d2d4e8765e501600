import Mathlib.Data.List.Nodup
import Mathlib.Data.Set.Basic
import Mathlib.Tactic

set_option autoImplicit false

/-! # Rekeying with one previous key

Two parties share a key. The client offers handshakes; the server answers an offer with a new
key and uses it from then on, without knowing whether the client will get the answer, and
keeps the key before. The client takes a key over when it gets the answer to an offer it
still waits for. Packets carry a number and are marked as seen under the current key.

Keys and offers are of any type. Messages may be lost, late and repeated: what was sent is a
set, and a step may use any member of it. `InStep` is what holds between the two in every
state such steps lead to. Its two main parts say what each side can rely on:

* `level`: while the two keys are the same, no number about to be used was seen before;
* `behind`: while the server is ahead, it still keeps the previous key, and nothing was sent
  under the key it waits for.
-/

namespace Lanecove

namespace Rekeying

variable {κ ε : Type}

/-- The client: its key, the offers it made and those it still waits for, the next number,
the packets it sent (key and number), and the numbers it has seen under its key. -/
structure Client (κ ε : Type) where
  key : κ
  offered : Set ε
  waiting : Set ε
  seq : Nat
  sent : Set (κ × Nat)
  seen : Set Nat

/-- The server: its key and all keys before, newest first, the answers it gave (offer and
key), numbers and packets as for the client, and whether it keeps the previous key. -/
structure Server (κ ε : Type) where
  key : κ
  older : List κ
  answers : Set (ε × κ)
  seq : Nat
  sent : Set (κ × Nat)
  seen : Set Nat
  keepsPrev : Prop

/-- Every key the server has used. -/
def Server.keys (s : Server κ ε) : List κ := s.key :: s.older

/-- A step of the client, while the server is `s`. -/
inductive ClientStep (s : Server κ ε) : Client κ ε → Client κ ε → Prop
  /-- It makes and gives up offers, sends packets, and receives packets of the server. -/
  | work {c c' : Client κ ε} (key : c'.key = c.key) (offered : c.offered ⊆ c'.offered)
      (waiting : ∀ e ∈ c'.waiting, e ∈ c.waiting ∨ e ∉ c.offered) (seq : c.seq ≤ c'.seq)
      (sent : ∀ k q, (k, q) ∈ c'.sent → (k, q) ∈ c.sent ∨ k = c.key ∧ q < c'.seq)
      (seen : ∀ x ∈ c'.seen, x ∈ c.seen ∨ ∃ q, (c.key, q) ∈ s.sent ∧ x ≤ q) : ClientStep s c c'
  /-- It takes over the key of an answer it waits for. -/
  | adopt {c c' : Client κ ε} (e : ε) (he : e ∈ c.waiting) (answer : (e, c'.key) ∈ s.answers)
      (offered : c'.offered = c.offered) (waiting : c'.waiting = ∅) (sent : c'.sent = c.sent)
      (seen : c'.seen = ∅) : ClientStep s c c'

/-- A step of the server, while the client is `c`. -/
inductive ServerStep (c : Client κ ε) : Server κ ε → Server κ ε → Prop
  /-- It sends packets and receives packets of the client. A packet under its own key lets it
  give up the previous one. -/
  | work {s s' : Server κ ε} (key : s'.key = s.key) (older : s'.older = s.older)
      (answers : s'.answers = s.answers) (seq : s.seq ≤ s'.seq)
      (sent : ∀ k q, (k, q) ∈ s'.sent → (k, q) ∈ s.sent ∨ k = s.key ∧ q < s'.seq)
      (seen : ∀ x ∈ s'.seen, x ∈ s.seen ∨ ∃ q, (s.key, q) ∈ c.sent ∧ x ≤ q)
      (keepsPrev : s.keepsPrev → s'.keepsPrev ∨ ∃ q, (s.key, q) ∈ c.sent) : ServerStep c s s'
  /-- It answers an offer with a key it has not used before. -/
  | answer {s s' : Server κ ε} (e : ε) (he : e ∈ c.offered) (key : s'.key ∉ s.keys)
      (older : s'.older = s.keys) (answers : s'.answers = insert (e, s'.key) s.answers)
      (sent : s'.sent = s.sent) (seen : s'.seen = ∅) (keepsPrev : s'.keepsPrev) :
      ServerStep c s s'

/-- What holds between the two. -/
structure InStep (c : Client κ ε) (s : Server κ ε) : Prop where
  client_key : c.key ∈ s.keys
  nodup : s.keys.Nodup
  answered : ∀ e k, (e, k) ∈ s.answers → e ∈ c.offered ∧ k ∈ s.keys
  newer : ∀ e ∈ c.waiting, ∀ k, (e, k) ∈ s.answers →
    c.key ≠ s.key ∧ k ≠ c.key ∧ ∀ q, (k, q) ∉ c.sent
  client_sent : ∀ k q, (k, q) ∈ c.sent → k ∈ s.keys ∧ (k = c.key → q < c.seq)
  server_sent : ∀ k q, (k, q) ∈ s.sent → k ∈ s.keys ∧ (k = s.key → q < s.seq)
  behind : c.key ≠ s.key → s.keepsPrev ∧ s.seen = ∅ ∧ ∀ q, (s.key, q) ∉ c.sent
  level : c.key = s.key → (∀ q ∈ s.seen, q < c.seq) ∧ ∀ q ∈ c.seen, q < s.seq

namespace InStep

variable {c c' : Client κ ε} {s s' : Server κ ε}

/-- Numbers seen are below a bound if those seen before and those just received are. -/
theorem seen_below {key : κ} {sent : Set (κ × Nat)} {seen seen' : Set Nat} {m : Nat}
    (hstep : ∀ x ∈ seen', x ∈ seen ∨ ∃ q, (key, q) ∈ sent ∧ x ≤ q) (hseen : ∀ x ∈ seen, x < m)
    (hsent : ∀ q, (key, q) ∈ sent → q < m) : ∀ x ∈ seen', x < m := by
  intro x hx
  rcases hstep x hx with hx | ⟨q, hq, hle⟩
  · exact hseen x hx
  · have hlt := hsent q hq
    omega

/-- **A step of the client.** -/
theorem client_step (h : InStep c s) (hstep : ClientStep s c c') : InStep c' s := by
  cases hstep with
  | work key offered waiting seq sent seen =>
      refine ⟨?_, h.nodup, ?_, ?_, ?_, h.server_sent, ?_, ?_⟩
      · rw [key]
        exact h.client_key
      · intro e k hek
        exact ⟨offered (h.answered e k hek).1, (h.answered e k hek).2⟩
      · intro e he k hek
        rcases waiting e he with hold | hnew
        · obtain ⟨hne, hk, hunsent⟩ := h.newer e hold k hek
          rw [key]
          refine ⟨hne, hk, ?_⟩
          intro q hq
          rcases sent k q hq with hq | ⟨hq, -⟩
          · exact hunsent q hq
          · exact hk hq
        · -- an offer that was not made yet has no answer
          exact absurd (h.answered e k hek).1 hnew
      · intro k q hq
        rcases sent k q hq with hold | ⟨rfl, hlt⟩
        · refine ⟨(h.client_sent k q hold).1, ?_⟩
          intro hk
          have hlt := (h.client_sent k q hold).2 (hk.trans key)
          omega
        · exact ⟨h.client_key, fun _ => hlt⟩
      · intro hne
        rw [key] at hne
        obtain ⟨hprev, hseen, hunsent⟩ := h.behind hne
        refine ⟨hprev, hseen, ?_⟩
        intro q hq
        rcases sent s.key q hq with hq | ⟨hq, -⟩
        · exact hunsent q hq
        · exact hne hq.symm
      · intro heq
        rw [key] at heq
        obtain ⟨hserver, hclient⟩ := h.level heq
        constructor
        · intro q hq
          have hlt := hserver q hq
          omega
        · exact seen_below seen hclient fun q hq => (h.server_sent _ q hq).2 heq
  | adopt e he answer offered waiting sent seen =>
      -- the server is ahead before the step, so nothing was sent or seen under its key
      obtain ⟨hne, -, hunsent⟩ := h.newer e he _ answer
      obtain ⟨hprev, hseen, hunsent'⟩ := h.behind hne
      refine ⟨(h.answered e _ answer).2, h.nodup, ?_, ?_, ?_, h.server_sent, ?_, ?_⟩
      · intro e' k hek
        rw [offered]
        exact h.answered e' k hek
      · intro e' he'
        rw [waiting] at he'
        exact absurd he' (Set.notMem_empty e')
      · intro k q hq
        rw [sent] at hq
        refine ⟨(h.client_sent k q hq).1, ?_⟩
        rintro rfl
        exact absurd hq (hunsent q)
      · intro _
        rw [sent]
        exact ⟨hprev, hseen, hunsent'⟩
      · intro _
        rw [hseen, seen]
        have hempty : ∀ (m q : Nat), q ∈ (∅ : Set Nat) → q < m := fun _ q hq =>
          absurd hq (Set.notMem_empty q)
        exact ⟨hempty _, hempty _⟩

/-- **A step of the server.** -/
theorem server_step (h : InStep c s) (hstep : ServerStep c s s') : InStep c s' := by
  cases hstep with
  | work key older answers seq sent seen keepsPrev =>
      have hkeys : s'.keys = s.keys := by rw [Server.keys, key, older, Server.keys]
      refine ⟨?_, ?_, ?_, ?_, ?_, ?_, ?_, ?_⟩
      · rw [hkeys]
        exact h.client_key
      · rw [hkeys]
        exact h.nodup
      · rw [hkeys, answers]
        exact h.answered
      · rw [key, answers]
        exact h.newer
      · rw [hkeys]
        exact h.client_sent
      · intro k q hq
        rw [hkeys, key]
        rcases sent k q hq with hold | ⟨rfl, hlt⟩
        · refine ⟨(h.server_sent k q hold).1, ?_⟩
          intro hk
          have hlt := (h.server_sent k q hold).2 hk
          omega
        · exact ⟨List.mem_cons_self, fun _ => hlt⟩
      · intro hne
        rw [key] at hne ⊢
        obtain ⟨hprev, hseen, hunsent⟩ := h.behind hne
        refine ⟨?_, ?_, hunsent⟩
        · rcases keepsPrev hprev with hkeep | ⟨q, hq⟩
          · exact hkeep
          · exact absurd hq (hunsent q)
        · apply Set.eq_empty_of_forall_notMem
          intro x hx
          rcases seen x hx with hx | ⟨q, hq, -⟩
          · rw [hseen] at hx
            exact hx
          · exact hunsent q hq
      · intro heq
        rw [key] at heq
        obtain ⟨hserver, hclient⟩ := h.level heq
        constructor
        · exact seen_below seen hserver fun q hq => (h.client_sent _ q hq).2 heq.symm
        · intro q hq
          have hlt := hclient q hq
          omega
  | answer e he key older answers sent seen keepsPrev =>
      have hkeys : s'.keys = s'.key :: s.keys := by rw [Server.keys, older]
      have hne : ∀ k ∈ s.keys, k ≠ s'.key := by
        rintro k hk rfl
        exact key hk
      refine ⟨?_, ?_, ?_, ?_, ?_, ?_, ?_, ?_⟩
      · rw [hkeys]
        exact List.mem_cons_of_mem _ h.client_key
      · rw [hkeys]
        exact List.nodup_cons.mpr ⟨key, h.nodup⟩
      · intro e' k hek
        rw [answers] at hek
        rw [hkeys]
        rcases hek with hnew | hold
        · obtain ⟨rfl, rfl⟩ := Prod.mk.inj hnew
          exact ⟨he, List.mem_cons_self⟩
        · exact ⟨(h.answered e' k hold).1, List.mem_cons_of_mem _ (h.answered e' k hold).2⟩
      · intro e' he' k hek
        rw [answers] at hek
        refine ⟨hne _ h.client_key, ?_⟩
        rcases hek with hnew | hold
        · obtain ⟨-, rfl⟩ := Prod.mk.inj hnew
          exact ⟨(hne _ h.client_key).symm, fun q hq => hne _ (h.client_sent _ q hq).1 rfl⟩
        · exact (h.newer e' he' k hold).2
      · intro k q hq
        rw [hkeys]
        exact ⟨List.mem_cons_of_mem _ (h.client_sent k q hq).1, (h.client_sent k q hq).2⟩
      · intro k q hq
        rw [sent] at hq
        rw [hkeys]
        refine ⟨List.mem_cons_of_mem _ (h.server_sent k q hq).1, ?_⟩
        intro hk
        exact absurd hk (hne k (h.server_sent k q hq).1)
      · intro _
        exact ⟨keepsPrev, seen, fun q hq => hne _ (h.client_sent _ q hq).1 rfl⟩
      · intro heq
        exact absurd heq (hne _ h.client_key)

end InStep

end Rekeying

end Lanecove
