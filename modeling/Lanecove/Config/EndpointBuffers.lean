import Lanecove.Basic.Strings
import Lanecove.Config.Load

set_option autoImplicit false

/-! # The buffer of an endpoint

`load_config` splits the value of `endpoint` in a buffer on the stack. `strncpy` fills 255 of its
256 characters, and unlike the other strings of the configuration this one is not zeroed before. So
the last character is what was on the stack, and a value that fills the rest has no end: `strrchr`
then looks for the colon beyond the buffer. Shorter values are split as `readEndpoint` says.
-/

namespace Lanecove

namespace EndpointCode

open CString
open Checked (BufferOf NUL Runs padded string strncpy write)
open Buffer (Holds)

/-- `buf` and the `endpoint_host` of the peer. -/
structure Memory where
  buf : Buffer Char 256
  endpointHost : Buffer Char 256

def buf : BufferOf Memory Char 256 := ⟨Memory.buf, fun mem x => { mem with buf := x }⟩

def endpointHost : BufferOf Memory Char 256 :=
  ⟨Memory.endpointHost, fun mem x => { mem with endpointHost := x }⟩

/-- Keep the host that stands in `buf`; `resolve_endpoint` reads it from its new place. -/
def keepHost : Checked Memory (List Char) := do
  let h ← string buf 0
  strncpy endpointHost h 256
  write endpointHost 255 [NUL]
  string endpointHost 0

/-- Split the string `s` that stands in `buf` at its last colon. The result is what
`resolve_endpoint` is called with, and `none` where the value is rejected before. -/
def splitAtColon (s : List Char) : Checked Memory (Option (List Char × Int)) :=
  match splitLast ':' s with
  | none => pure none
  | some (host, _) =>
      if host = [] then pure none
      else do
        write buf host.length [NUL]
        let tail ← string buf (host.length + 1)
        if atoi tail ≤ 0 ∨ 65535 < atoi tail then pure none
        else do
          let h ← keepHost
          pure (some (h, atoi tail))

/-- `S_PEER_VAL` for `endpoint`. -/
def splitEndpoint (v : List Char) : Checked Memory (Option (List Char × Int)) := do
  strncpy buf v 255
  let s ← string buf 0
  splitAtColon s

theorem keepHost_runs (mem : Memory) {h : List Char} (hbuf : Holds mem.buf 0 (h ++ [NUL]))
    (hnul : NUL ∉ h) (hlen : h.length < 255) : ∃ mem', Runs keepHost mem h mem' := by
  obtain ⟨b, hcopy, hpad, -⟩ := Runs.strncpy endpointHost mem h (k := 256) le_rfl
  rw [Checked.padded_of_lt (by omega)] at hpad
  -- the terminator at the end is written after that of the host
  obtain ⟨b', hstore, -, hkeep⟩ := Buffer.store_spec b 255 [NUL] le_rfl
  have hhost : Holds b' 0 (h ++ [NUL]) := by
    refine hkeep 0 _ (.inl ?_) hpad.left
    rw [List.length_append, List.length_singleton]
    omega
  have hread : Runs (string buf 0) mem h mem := Runs.string rfl hbuf hnul
  have hwrite : Runs (write endpointHost 255 [NUL]) (endpointHost.set mem b) ()
      (endpointHost.set (endpointHost.set mem b) b') := Runs.write (k := 255) rfl hstore
  exact ⟨_, hread.bind (hcopy.bind (hwrite.bind (Runs.string rfl hhost hnul)))⟩

/-- What the colon was replaced in: the host before it, and the port after it. -/
theorem holds_split {b : Buffer Char 256} {host tail : List Char}
    (h : Holds b 0 (host ++ ':' :: tail ++ [NUL])) :
    ∃ b', b.store host.length [NUL] = some b' ∧ Holds b' 0 (host ++ [NUL]) ∧
      Holds b' (host.length + 1) (tail ++ [NUL]) := by
  have hroom := h.le
  simp only [List.length_append, List.length_cons, List.length_nil] at hroom
  obtain ⟨b', hstore, hput, hkeep⟩ := Buffer.store_spec b host.length [NUL]
    (by rw [List.length_singleton]; omega)
  have hparts : Holds b 0 (host ++ [':'] ++ (tail ++ [NUL])) := by
    simpa only [List.append_assoc, List.cons_append, List.nil_append] using h
  refine ⟨b', hstore, ?_, ?_⟩
  · refine (hkeep 0 host (.inl (by omega)) hparts.left.left).append ?_
    rwa [Nat.zero_add]
  · have htail := hparts.right
    rw [List.length_append, List.length_singleton, Nat.zero_add] at htail
    exact hkeep _ _ (.inr (by rw [List.length_singleton])) htail

section Split

variable {v : List Char} (env : LoadEnv)

/-- What is left to do is to ask the resolver. -/
def resolved (env : LoadEnv) (r : Option (List Char × Int)) : Option Endpoint :=
  r.bind fun (host, port) => (env.getaddrinfo host port).map fun addr => ⟨host, port, addr⟩

theorem splitAtColon_runs (mem : Memory) (hbuf : Holds mem.buf 0 (v ++ [NUL])) (hnul : NUL ∉ v)
    (hlen : v.length < 255) :
    ∃ r mem', Runs (splitAtColon v) mem r mem' ∧ readEndpoint env v = resolved env r := by
  unfold splitAtColon readEndpoint
  rw [List.take_of_length_le (by omega)]
  cases hsplit : splitLast ':' v with
  | none => exact ⟨none, mem, Runs.pure none, rfl⟩
  | some p =>
      obtain ⟨host, tail⟩ := p
      have hv := (splitLast_eq_some.mp hsplit).1
      have hvlen : v.length = host.length + (tail.length + 1) := by
        rw [hv, List.length_append, List.length_cons]
      have hparts : NUL ∉ host ∧ NUL ∉ tail := by
        rw [hv, List.mem_append, List.mem_cons, not_or, not_or] at hnul
        exact ⟨hnul.1, hnul.2.2⟩
      dsimp only
      by_cases hhost : host = []
      · rw [if_pos hhost, if_pos hhost]
        exact ⟨none, mem, Runs.pure none, rfl⟩
      · rw [if_neg hhost, if_neg hhost]
        obtain ⟨b, hstore, hheld, htail⟩ := holds_split (hv ▸ hbuf)
        have hwrite : Runs (write buf host.length [NUL]) mem () (buf.set mem b) :=
          Runs.write rfl hstore
        have hport : Runs (string buf (host.length + 1)) (buf.set mem b) tail (buf.set mem b) :=
          Runs.string rfl htail hparts.2
        by_cases hbad : atoi tail ≤ 0 ∨ 65535 < atoi tail
        · rw [if_pos hbad]
          refine ⟨none, buf.set mem b, hwrite.bind (hport.bind ?_), rfl⟩
          rw [if_pos hbad]
          exact Runs.pure none
        · rw [if_neg hbad]
          obtain ⟨mem', hkeep⟩ := keepHost_runs (buf.set mem b) hheld hparts.1 (by omega)
          refine ⟨some (host, atoi tail), mem', hwrite.bind (hport.bind ?_), rfl⟩
          rw [if_neg hbad]
          exact hkeep.bind (Runs.pure _)

/-- **A value with room for its terminator** is split as `readEndpoint` says, whatever the buffers
held. -/
theorem splitEndpoint_runs (hnul : NUL ∉ v) (hlen : v.length < 255) (mem : Memory) :
    ∃ r mem', Runs (splitEndpoint v) mem r mem' ∧ readEndpoint env v = resolved env r := by
  obtain ⟨b, hcopy, hpad, -⟩ := Runs.strncpy buf mem v (k := 255) (by omega)
  rw [Checked.padded_of_lt hlen] at hpad
  have hstring : Runs (string buf 0) (buf.set mem b) v (buf.set mem b) :=
    Runs.string rfl hpad.left hnul
  obtain ⟨r, mem', hsplit, heq⟩ := splitAtColon_runs env (buf.set mem b) hpad.left hnul hlen
  exact ⟨r, mem', hcopy.bind (hstring.bind hsplit), heq⟩

/-- A value that fills the buffer, and a last character that is not a terminator by chance. -/
theorem splitEndpoint_faults (hnul : NUL ∉ v) (hlen : 255 ≤ v.length) {mem : Memory} {c : Char}
    (hc : c ≠ NUL) (hlast : Holds mem.buf 255 [c]) (r : Option (List Char × Int)) (mem' : Memory) :
    ¬ Runs (splitEndpoint v) mem r mem' := by
  intro hrun
  obtain ⟨b, hcopy, hpad, hkeep⟩ := Runs.strncpy buf mem v (k := 255) (by omega)
  obtain ⟨u, mem₁, hcopied, hrest⟩ := hrun.of_bind
  obtain rfl : mem₁ = buf.set mem b :=
    congrArg Prod.snd (Except.ok.inj (Eq.trans (Eq.symm hcopied) hcopy))
  obtain ⟨s, mem₂, hstring, -⟩ := hrest.of_bind
  refine Checked.not_runs_string ?_ s mem₂ hstring
  -- the whole buffer is known
  have hall : Holds b 0 (v.take 255 ++ [c]) := by
    rw [Checked.padded_of_le hlen] at hpad
    refine hpad.append ?_
    rw [List.length_take, Nat.min_eq_left hlen, Nat.zero_add]
    exact hkeep 255 [c] le_rfl hlast
  obtain ⟨-, htake⟩ := Buffer.holds_iff.mp hall
  have hfull : b.toList = v.take 255 ++ [c] := by
    rw [← htake, List.drop_zero, List.take_of_length_le]
    rw [List.Vector.toList_length, List.length_append, List.length_take, List.length_singleton]
    omega
  show NUL ∉ b.toList.drop 0
  rw [List.drop_zero, hfull, List.mem_append, not_or, List.mem_singleton]
  exact ⟨fun h => hnul (List.mem_of_mem_take h), hc.symm⟩

end Split

/-- **When an endpoint is split inside its buffer.** Whatever stood on the stack, the value is
split as `readEndpoint` says, without an access outside the buffers, exactly if it is shorter than
255 characters. -/
theorem endpoint_in_buffer_iff (env : LoadEnv) (v : List Char) (hnul : NUL ∉ v) :
    (∀ mem, ∃ r mem', Runs (splitEndpoint v) mem r mem' ∧ readEndpoint env v = resolved env r) ↔
      v.length < 255 := by
  constructor
  · intro h
    by_contra hlen
    let mem : Memory := ⟨List.Vector.replicate 256 'x', List.Vector.replicate 256 'x'⟩
    obtain ⟨r, mem', hrun, -⟩ := h mem
    have hlast : Holds mem.buf 255 ['x'] := rfl
    exact splitEndpoint_faults hnul (by omega) (by decide) hlast r mem' hrun
  · exact fun hlen => splitEndpoint_runs env hnul hlen

theorem endpoint_in_buffer_iff_vpn :
    NUL ∉ "vpn.example.org:5040".toList ∧
    ((∀ mem, ∃ r mem', Runs (splitEndpoint "vpn.example.org:5040".toList) mem r mem' ∧
        readEndpoint ⟨true, fun _ _ => some .zero⟩ "vpn.example.org:5040".toList =
          resolved ⟨true, fun _ _ => some .zero⟩ r) ↔
      "vpn.example.org:5040".toList.length < 255) ∧
    "vpn.example.org:5040".toList.length < 255 := by
  have hnul : NUL ∉ "vpn.example.org:5040".toList := by decide
  exact ⟨hnul, endpoint_in_buffer_iff _ _ hnul, by decide⟩

end EndpointCode

end Lanecove
