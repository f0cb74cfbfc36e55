import DecentralizedBroadcast.StackInvariant

/-! The datagrams below the links. A sender sends as many bytes as a buffer holds, with whatever
lies in memory behind its text; a receiver takes what stands before the first NUL. -/
set_option autoImplicit false

namespace DecentralizedBroadcast

/-- `sendMessage`: the text is copied up to a NUL, and `sendto` takes `MAX_LENGTH` bytes from where
it starts. `beyond` is the memory behind it. -/
def sendMessage (msg beyond : Str) : Str := (cStr msg ++ ('\x00' :: beyond)).take maxLength

/-- `strncpy(buffer, source, MAX_LENGTH)`, which fills up with NULs. -/
def strncpy (source : Str) : Str :=
  (cStr source).take maxLength ++ List.replicate (maxLength - (cStr source).length) '\x00'

/-- `UDPserver::receive`: the datagram is written over what was in `receive_buffer`. -/
def udpReceive (receiveBuffer datagram : Str) : Str :=
  strncpy (datagram ++ receiveBuffer.drop datagram.length)

/-- `std::string message_received(buffer)`, which reads on if the buffer has no NUL. -/
def messageReceived (buffer : Str) : Except Fault Str :=
  if '\x00' ∈ buffer then .ok (cStr buffer) else .error .bufferOverflow

theorem cStr_append {s : Str} (h : '\x00' ∉ s) (rest : Str) : cStr (s ++ rest) = s ++ cStr rest :=
  takeWhile_ne_append h rest

theorem notMem_cStr (s : Str) : '\x00' ∉ cStr s := by
  intro h
  simpa using List.mem_takeWhile_imp h

theorem messageReceived_of_lt {msg : Str} (h : (cStr msg).length < maxLength)
    (beyond receiveBuffer : Str) :
    messageReceived (udpReceive receiveBuffer (sendMessage msg beyond)) = .ok (cStr msg) := by
  obtain ⟨k, hk⟩ : ∃ k, maxLength = (cStr msg).length + (k + 1) := Nat.exists_eq_add_of_lt h
  have hsent : sendMessage msg beyond = cStr msg ++ '\x00' :: beyond.take k := by
    rw [sendMessage, hk, List.take_append, List.take_of_length_le (by omega),
      Nat.add_sub_cancel_left, List.take_succ_cons]
  have hsource : ∀ rest, cStr (sendMessage msg beyond ++ rest) = cStr msg := by
    intro rest
    rw [hsent, List.append_assoc, cStr_append (notMem_cStr msg)]
    simp [cStr]
  have hbuffer : udpReceive receiveBuffer (sendMessage msg beyond) =
      cStr msg ++ '\x00' :: List.replicate k '\x00' := by
    rw [udpReceive, strncpy, hsource, List.take_of_length_le (by omega), hk,
      Nat.add_sub_cancel_left, List.replicate_succ]
  rw [hbuffer, messageReceived, if_pos (by simp), cStr_append (notMem_cStr msg)]
  simp [cStr]

theorem messageReceived_of_le {msg : Str} (h : maxLength ≤ (cStr msg).length)
    (beyond receiveBuffer : Str) :
    messageReceived (udpReceive receiveBuffer (sendMessage msg beyond)) =
      .error .bufferOverflow := by
  have hsent : sendMessage msg beyond = (cStr msg).take maxLength := by
    rw [sendMessage, List.take_append_of_le_length h]
  have hnul : '\x00' ∉ (cStr msg).take maxLength := fun hin =>
    notMem_cStr msg (List.mem_of_mem_take hin)
  have hlen : ((cStr msg).take maxLength).length = maxLength := List.length_take_of_le h
  have hbuffer : udpReceive receiveBuffer (sendMessage msg beyond) = (cStr msg).take maxLength := by
    rw [udpReceive, strncpy, hsent, cStr_append hnul, List.take_left' hlen, List.length_append,
      hlen, Nat.sub_eq_zero_of_le (Nat.le_add_right _ _), List.replicate_zero, List.append_nil]
  rw [hbuffer, messageReceived, if_neg hnul]

/-- What is queued was written into a buffer, its terminator included. -/
def QueuedFit (n : Net) : Prop := ∀ p t f, (p, t, f) ∈ n.queued → f.length + 2 ≤ maxLength

theorem QueuedFit.pushMessage {n : Net} (h : QueuedFit n) {p t : Nat} {msg f : Str}
    (hf : formatPacket p t msg = .ok f) : QueuedFit (n.pushMessage p t f) := by
  intro q u g hg
  rcases Net.mem_pushMessage_queued.mp hg with hg | hg
  · exact h q u g hg
  · cases hg
    unfold formatPacket at hf
    split at hf
    · rename_i hfit
      exact Except.ok.inj hf ▸ hfit
    · cases hf

theorem queuedFit_step {N : Nat} {n n' : Net} {a : LinkAction} (h : QueuedFit n)
    (hs : Net.step N n a = some n') : QueuedFit n' := by
  cases netStep_effect hs with
  | setActive | sendThreaded | ackThreaded => exact h
  | addMessage hl hf | sendNewMessage hl hf | inactive hl hf => exact h.pushMessage hf
  | receive hl hw hr =>
    have hsame := (Net.receive_ok hr).1
    intro q u g hg
    exact h q u g (hsame ▸ hg)

theorem queuedFit_reachableBy {N : Nat} {n : Net} {allowed : Net → LinkAction → Prop}
    (h : (linkMachine N).ReachableBy allowed n) : QueuedFit n :=
  h.invariant QueuedFit (by intro p t f hf; cases hf) fun _ _ _ hi _ hs => queuedFit_step hi hs

theorem notMem_packetText (p t : Nat) (msg : Str) : '\x00' ∉ packetText p t msg := by
  simp [packetText, notMem_cStr, notMem_pad3]

theorem NetInv.wire_fits {N : Nat} {n : Net} (h : NetInv N n) (hq : QueuedFit n) {t : Nat} {f : Str}
    (hf : (t, f) ∈ n.wire) : '\x00' ∉ f ∧ f.length < maxLength := by
  rcases h.onWire t f hf with ⟨p, hin⟩ | ⟨u, d, rfl, hin, -⟩
  · obtain ⟨-, -, msg, hform⟩ := h.form p t f hin
    have := hq p t f hin
    exact ⟨hform ▸ notMem_packetText p t msg, by omega⟩
  · obtain ⟨-, -, msg, hform⟩ := h.form _ _ _ hin
    have hnul := hform ▸ notMem_packetText t u msg
    have hlen := hq _ _ _ hin
    simp only [List.length_cons] at hlen ⊢
    exact ⟨by simpa using hnul, by omega⟩

/-- Whatever lies behind a text in memory, and whatever was received before it. -/
def ReadsBack (msg : Str) : Prop := ∀ beyond receiveBuffer : Str,
  messageReceived (udpReceive receiveBuffer (sendMessage msg beyond)) = .ok msg

theorem readsBack_of_fits {msg : Str} (h : '\x00' ∉ msg ∧ msg.length < maxLength) :
    ReadsBack msg := by
  intro beyond receiveBuffer
  have hmsg := cStr_of_notMem h.1
  rw [messageReceived_of_lt (by rw [hmsg]; exact h.2), hmsg]

theorem fits_of_readsBack {msg : Str} (h : ReadsBack msg) :
    '\x00' ∉ msg ∧ msg.length < maxLength := by
  have h := h [] []
  by_cases hlen : (cStr msg).length < maxLength
  · rw [messageReceived_of_lt hlen] at h
    have hmsg := Except.ok.inj h
    exact ⟨hmsg ▸ notMem_cStr msg, hmsg ▸ hlen⟩
  · rw [messageReceived_of_le (by omega)] at h
    cases h

/-- A text arrives as it was sent exactly if it has no NUL and leaves room for one. So it is with
all that the links ever send, under any broadcast and in the whole program. -/
theorem datagrams_read_back (N : Nat) (hN : N ≤ 999) :
    (∀ msg, ReadsBack msg ↔ '\x00' ∉ msg ∧ msg.length < maxLength) ∧
    (∀ n, (linkMachine N).Reachable n → ∀ t f, (t, f) ∈ n.wire → ReadsBack f) ∧
    ∀ cfg s, (stack cfg).Reachable s → ∀ t f, (t, f) ∈ s.net.wire → ReadsBack f := by
  refine ⟨fun msg => ⟨fits_of_readsBack, readsBack_of_fits⟩, fun n h t f hf => ?_,
    fun cfg s h t f hf => ?_⟩
  · exact readsBack_of_fits ((netInv_reachable hN h).wire_fits (queuedFit_reachableBy h) hf)
  · have hlinks := stack_links h
    have hnet := netInv_reachableBy hlinks
    exact readsBack_of_fits (hnet.wire_fits (queuedFit_reachableBy hlinks) hf)

theorem datagrams_read_back_resentPacket :
    ∃ n, (linkMachine 3).run resentPacket Net.start = some n ∧
      (1, (packetText 1 2 ['h', 'i']).set 0 '1') ∈ n.wire ∧
      ∀ t f, (t, f) ∈ n.wire → ReadsBack f := by
  have hrun : ((linkMachine 3).run resentPacket Net.start).map
      (fun n => decide ((1, (packetText 1 2 ['h', 'i']).set 0 '1') ∈ n.wire)) = some true := by
    decide
  obtain ⟨n, hn, hin⟩ := Option.map_eq_some_iff.mp hrun
  exact ⟨n, hn, of_decide_eq_true hin,
    (datagrams_read_back 3 (by decide)).2.1 n (Machine.reachable_of_run hn)⟩

end DecentralizedBroadcast
