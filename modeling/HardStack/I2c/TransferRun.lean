import HardStack.I2c.Transfer

/-! # Interrupts in any order

Between its start and its finish a transfer is at a byte of one of its messages: what was written is the
contents of the messages before, and of the current one up to that byte. With messages that are not
empty, `I2C_demo_isr` completes without an error only at the end of the last one. -/

namespace HardStack.I2c.Transfer

variable {msgs : List Msg} {mem : ℕ → BitVec 8} {s s' : State} {irq : Irq} {k i j : ℕ} {m : Msg}

/-! ### Buffers -/

/-- The `n` bytes of a buffer. -/
def bytes (mem : ℕ → BitVec 8) (buf n : ℕ) : List (BitVec 8) := (List.range n).map fun i => mem (buf + i)

/-- The bytes of the write messages. -/
def contents (mem : ℕ → BitVec 8) (msgs : List Msg) : List (BitVec 8) :=
  (msgs.filter (! ·.read)).flatMap fun m => bytes mem m.buf m.len

/-- The memory with these bytes in a buffer. -/
def stored (mem : ℕ → BitVec 8) (buf : ℕ) (l : List (BitVec 8)) : ℕ → BitVec 8 := fun a =>
  if buf ≤ a ∧ a < buf + l.length then l.getD (a - buf) 0 else mem a

theorem bytes_succ (mem : ℕ → BitVec 8) (buf n : ℕ) :
    bytes mem buf (n + 1) = bytes mem buf n ++ [mem (buf + n)] := by
  unfold bytes
  rw [List.range_succ, List.map_append]
  rfl

theorem bytes_initial (mem : ℕ → BitVec 8) (buf : ℕ) {n l : ℕ} (h : n ≤ l) :
    bytes mem buf n <+: bytes mem buf l := by
  obtain ⟨d, rfl⟩ := Nat.exists_eq_add_of_le h
  unfold bytes
  rw [List.range_add, List.map_append]
  exact List.prefix_append _ _

theorem contents_append (mem : ℕ → BitVec 8) (L M : List Msg) :
    contents mem (L ++ M) = contents mem L ++ contents mem M := by
  unfold contents
  rw [List.filter_append, List.flatMap_append]

theorem contents_write (h : m.read = false) : contents mem [m] = bytes mem m.buf m.len := by
  simp [contents, h]

theorem contents_read (h : m.read = true) : contents mem [m] = [] := by
  simp [contents, h]

theorem stored_nil (mem : ℕ → BitVec 8) (buf : ℕ) : stored mem buf [] = mem := by
  funext a
  unfold stored
  rw [if_neg (by rw [List.length_nil]; omega)]

/-- The next byte of the buffer. -/
theorem stored_append (mem : ℕ → BitVec 8) (buf : ℕ) (l : List (BitVec 8)) (byte : BitVec 8) :
    stored mem buf (l ++ [byte]) = Function.update (stored mem buf l) (buf + l.length) byte := by
  funext a
  unfold stored
  rw [List.length_append, List.length_singleton]
  by_cases ha : a = buf + l.length
  · rw [ha, Function.update_self, if_pos (by omega), Nat.add_sub_cancel_left]
    simp
  · rw [Function.update_of_ne ha]
    by_cases hin : buf ≤ a ∧ a < buf + l.length
    · rw [if_pos hin, if_pos (by omega), List.getD_append _ _ _ _ (by omega)]
    · rw [if_neg hin, if_neg (by omega)]

/-! ### The invariant -/

/-- The place is in the buffer of a message. -/
def InBuffer (msgs : List Msg) (x : Option ℕ × ℕ) : Prop :=
  ∃ k m, x.1 = some k ∧ msgs[k]? = some m ∧ m.buf ≤ x.2 ∧ x.2 < m.buf + m.len

/-- **The transfer is at a byte** of the message `m` with the index `k`; `mem` is the memory at the
start. -/
structure At (msgs : List Msg) (mem : ℕ → BitVec 8) (k : ℕ) (m : Msg) (s : State) : Prop where
  curr : s.currMsg = some k
  msg : msgs[k]? = some m
  num : s.numMsgs = msgs.length - (k + 1)
  remaining : s.msgBufRemaining ≤ m.len
  buf : s.msgBuf = m.buf + (m.len - s.msgBufRemaining)
  write : m.read = false → s.mem = mem ∧ s.received = [] ∧
    s.written = contents mem (msgs.take k) ++ bytes mem m.buf (m.len - s.msgBufRemaining)
  read : m.read = true → s.mem = stored mem m.buf s.received ∧ s.written = contents mem (msgs.take k) ∧
    s.received.length = m.len - s.msgBufRemaining
  touched : ∀ x ∈ s.touched, InBuffer msgs x

/-- What the handler leaves as it is while it moves bytes. -/
structure Moves (s s' : State) : Prop where
  numMsgs : s'.numMsgs = s.numMsgs
  msgErr : s'.msgErr = s.msgErr
  completed : s'.completed = s.completed

theorem At.touched_next (h : At msgs mem k m s) (h0 : s.msgBufRemaining ≠ 0) :
    ∀ x ∈ s.touched ++ [(s.currMsg, s.msgBuf)], InBuffer msgs x := by
  intro x hx
  have hle := h.remaining
  have hbuf := h.buf
  rcases List.mem_append.mp hx with hx | hx
  · exact h.touched x hx
  · rw [List.mem_singleton.mp hx]
    exact ⟨k, m, h.curr, h.msg, by dsimp only; omega, by dsimp only; omega⟩

theorem At.send (h : At msgs mem k m s) (hm : m.read = false) (h0 : s.msgBufRemaining ≠ 0) :
    At msgs mem k m s.send where
  curr := h.curr
  msg := h.msg
  num := h.num
  remaining := (Nat.sub_le _ _).trans h.remaining
  buf := by
    have hle := h.remaining
    have hbuf := h.buf
    show s.msgBuf + 1 = m.buf + (m.len - (s.msgBufRemaining - 1))
    omega
  write _ := by
    have hle := h.remaining
    obtain ⟨hmem, hreceived, hwritten⟩ := h.write hm
    refine ⟨hmem, hreceived, ?_⟩
    show s.written ++ [s.mem s.msgBuf] = _ ++ bytes mem m.buf (m.len - (s.msgBufRemaining - 1))
    rw [show m.len - (s.msgBufRemaining - 1) = m.len - s.msgBufRemaining + 1 by omega, bytes_succ, hwritten,
      hmem, h.buf, List.append_assoc]
  read hr := by
    rw [hm] at hr
    cases hr
  touched := h.touched_next h0

theorem At.store (h : At msgs mem k m s) (hm : m.read = true) (h0 : s.msgBufRemaining ≠ 0) (byte : BitVec 8) :
    At msgs mem k m (s.store byte) where
  curr := h.curr
  msg := h.msg
  num := h.num
  remaining := (Nat.sub_le _ _).trans h.remaining
  buf := by
    have hle := h.remaining
    have hbuf := h.buf
    show s.msgBuf + 1 = m.buf + (m.len - (s.msgBufRemaining - 1))
    omega
  write hw := by
    rw [hm] at hw
    cases hw
  read _ := by
    have hle := h.remaining
    obtain ⟨hmem, hwritten, hreceived⟩ := h.read hm
    refine ⟨?_, hwritten, ?_⟩
    · show Function.update s.mem s.msgBuf byte = stored mem m.buf (s.received ++ [byte])
      rw [stored_append, hreceived, ← h.buf, ← hmem]
    · show (s.received ++ [byte]).length = m.len - (s.msgBufRemaining - 1)
      rw [List.length_append, List.length_singleton, hreceived]
      omega
  touched := h.touched_next h0

/-- **`I2C_demo_fill_txfifo`** goes on in a write message. -/
theorem fillTxfifo_spec (irq : Irq) (i : ℕ) (s : State) (h : At msgs mem k m s) (hm : m.read = false) :
    At msgs mem k m (fillTxfifo irq i s) ∧ Moves s (fillTxfifo irq i s) := by
  rw [fillTxfifo]
  by_cases h0 : s.msgBufRemaining = 0
  · rw [if_pos h0]
    exact ⟨h, rfl, rfl, rfl⟩
  · rw [if_neg h0]
    by_cases htxd : irq.status i &&& I2C_DEMO_S_TXD = 0
    · rw [if_pos htxd]
      exact ⟨h, rfl, rfl, rfl⟩
    · rw [if_neg htxd]
      have hdec : s.send.msgBufRemaining < s.msgBufRemaining := Nat.sub_lt (Nat.pos_of_ne_zero h0) one_pos
      obtain ⟨hat, h1, h2, h3⟩ := fillTxfifo_spec irq (i + 1) s.send (h.send hm h0) hm
      exact ⟨hat, h1, h2, h3⟩
termination_by s.msgBufRemaining

/-- **`I2C_demo_drain_rxfifo`** goes on in a read message. -/
theorem drainRxfifo_spec (irq : Irq) (i j : ℕ) (s : State) (h : At msgs mem k m s) (hm : m.read = true) :
    At msgs mem k m (drainRxfifo irq i j s).2 ∧ Moves s (drainRxfifo irq i j s).2 := by
  rw [drainRxfifo]
  by_cases h0 : s.msgBufRemaining = 0
  · rw [if_pos h0]
    exact ⟨h, rfl, rfl, rfl⟩
  · rw [if_neg h0]
    by_cases hrxd : irq.status i &&& I2C_DEMO_S_RXD = 0
    · rw [if_pos hrxd]
      exact ⟨h, rfl, rfl, rfl⟩
    · rw [if_neg hrxd]
      have hdec : (s.store ((irq.fifo j).setWidth 8)).msgBufRemaining < s.msgBufRemaining :=
        Nat.sub_lt (Nat.pos_of_ne_zero h0) one_pos
      obtain ⟨hat, h1, h2, h3⟩ := drainRxfifo_spec irq (i + 1) (j + 1) _ (h.store hm h0 _) hm
      exact ⟨hat, h1, h2, h3⟩
termination_by s.msgBufRemaining

/-- **`I2C_demo_start_transfer`** for the next message. -/
theorem startTransfer_spec (hcurr : s.currMsg = some k) (hmsg : msgs[k]? = some m)
    (hnum : s.numMsgs = msgs.length - k) (hmem : s.mem = mem) (hreceived : s.received = [])
    (hwritten : s.written = contents mem (msgs.take k)) (htouched : ∀ x ∈ s.touched, InBuffer msgs x) :
    ∃ s', startTransfer msgs s = some s' ∧ At msgs mem k m s' ∧ s'.msgBufRemaining = m.len ∧
      s'.msgErr = s.msgErr ∧ s'.completed = s.completed := by
  obtain ⟨hlt, -⟩ := List.getElem?_eq_some_iff.mp hmsg
  unfold startTransfer
  rw [if_neg (by omega), hcurr]
  simp only [Option.bind_eq_bind, Option.bind_some, hmsg]
  refine ⟨_, rfl, ⟨rfl, hmsg, ?_, le_rfl, ?_, fun _ => ⟨hmem, hreceived, ?_⟩, fun _ => ⟨?_, hwritten, ?_⟩,
    htouched⟩, rfl, rfl, rfl⟩
  · show s.numMsgs - 1 = _
    omega
  · show m.buf = m.buf + (m.len - m.len)
    omega
  · show s.written = _ ++ bytes mem m.buf (m.len - m.len)
    rw [Nat.sub_self, hwritten]
    exact (List.append_nil _).symm
  · show s.mem = stored mem m.buf s.received
    rw [hreceived, stored_nil, hmem]
  · show s.received.length = m.len - m.len
    rw [hreceived, Nat.sub_self]
    rfl

/-! ### The handler -/

/-- With messages that are not empty, the transfer is at its end if nothing remains of the message, and
that is how it is when it has been completed without an error. -/
structure Progress (msgs : List Msg) (s : State) : Prop where
  last : (∀ m ∈ msgs, 0 < m.len) → s.msgBufRemaining = 0 → s.numMsgs = 0
  done : (∀ m ∈ msgs, 0 < m.len) → s.completed = true → s.msgErr = 0 → s.msgBufRemaining = 0

/-- **The invariant.** -/
def Inv (msgs : List Msg) (mem : ℕ → BitVec 8) (s : State) : Prop :=
  ∃ k m, At msgs mem k m s ∧ Progress msgs s

/-- The message that is current is a read message, or a write message. -/
def Current (msgs : List Msg) (s : State) (read : Bool) : Prop :=
  ∃ k m, s.currMsg = some k ∧ msgs[k]? = some m ∧ m.read = read

/-- The controller asks for bytes only in a write message, and has some only in a read message. -/
def Allowed (msgs : List Msg) (s : State) (irq : Irq) : Prop := ∀ i,
  (irq.status i &&& I2C_DEMO_S_TXW ≠ 0 ∨ irq.status i &&& I2C_DEMO_S_TXD ≠ 0 → Current msgs s false) ∧
  (irq.status i &&& I2C_DEMO_S_RXR ≠ 0 ∨ irq.status i &&& I2C_DEMO_S_RXD ≠ 0 → Current msgs s true)

theorem At.read_of_current {read : Bool} (h : At msgs mem k m s) (hc : Current msgs s read) : m.read = read := by
  obtain ⟨k', m', hcurr, hmsg, hread⟩ := hc
  rw [h.curr] at hcurr
  cases hcurr
  rw [h.msg] at hmsg
  cases hmsg
  exact hread

/-- Only the last message is a read. -/
theorem At.num_of_read (hacc : ∀ m ∈ msgs.dropLast, m.read = false) (h : At msgs mem k m s)
    (hm : m.read = true) : s.numMsgs = 0 := by
  obtain ⟨hlt, hget⟩ := List.getElem?_eq_some_iff.mp h.msg
  by_contra hnum
  have hk : k < msgs.dropLast.length := by
    rw [List.length_dropLast]
    have := h.num
    omega
  have hmem : m ∈ msgs.dropLast := by
    rw [← hget, ← List.getElem_dropLast hk]
    exact List.getElem_mem hk
  rw [hacc m hmem] at hm
  cases hm

theorem At.complete (h : At msgs mem k m s) (e : BitVec 32) : At msgs mem k m (complete s e) :=
  ⟨h.curr, h.msg, h.num, h.remaining, h.buf, h.write, h.read, h.touched⟩

/-- The handler completes with an error, or at the end of a message. -/
theorem complete_inv {e : BitVec 32} (h : At msgs mem k m s)
    (hlast : (∀ m ∈ msgs, 0 < m.len) → s.msgBufRemaining = 0 → s.numMsgs = 0)
    (he : e = 0 → s.msgBufRemaining = 0) : Inv msgs mem (complete s e) :=
  ⟨k, m, h.complete e, hlast, fun _ _ hzero => he hzero⟩

/-- A branch that moves bytes is taken only while something remains. -/
theorem Progress.moved (h : Progress msgs s) (h0 : s.msgBufRemaining ≠ 0) (hmsgErr : s'.msgErr = s.msgErr)
    (hcompleted : s'.completed = s.completed)
    (hlast : (∀ m ∈ msgs, 0 < m.len) → s'.msgBufRemaining = 0 → s'.numMsgs = 0) : Progress msgs s' where
  last := hlast
  done hpos hc he := by
    rw [hcompleted] at hc
    rw [hmsgErr] at he
    exact absurd (h.done hpos hc he) h0

theorem isrDone_inv (hacc : ∀ m ∈ msgs.dropLast, m.read = false) (h : Inv msgs mem s) (irq : Irq) :
    ∃ s', isrDone msgs irq s = some s' ∧ Inv msgs mem s' := by
  obtain ⟨k, m, hat, hprog⟩ := h
  -- whatever the last status is
  have hend : ∀ (val : BitVec 32) (s : State), At msgs mem k m s →
      ((∀ m ∈ msgs, 0 < m.len) → s.msgBufRemaining = 0 → s.numMsgs = 0) →
      ∃ s', (if val &&& I2C_DEMO_S_RXD ≠ 0 ∨ s.msgBufRemaining ≠ 0 then some (complete s I2C_DEMO_S_LEN)
        else some (complete s 0)) = some s' ∧ Inv msgs mem s' := by
    intro val s hat hlast
    split_ifs with hlen
    · exact ⟨_, rfl, complete_inv hat hlast fun h => absurd h (by decide)⟩
    · exact ⟨_, rfl, complete_inv hat hlast fun _ => not_not.mp fun h => hlen (Or.inr h)⟩
  unfold isrDone
  rw [hat.curr]
  simp only [Option.bind_eq_bind, hat.msg, Option.bind_some]
  by_cases hread : m.read = true
  · rw [if_pos hread]
    obtain ⟨hat', hmoves⟩ := drainRxfifo_spec irq 1 0 s hat hread
    exact hend _ _ hat' fun _ _ => hat'.num_of_read hacc hread
  · rw [if_neg hread]
    exact hend _ _ hat hprog.last

/-- **An interrupt** in a transfer. -/
theorem isr_inv (hacc : ∀ m ∈ msgs.dropLast, m.read = false) (h : Inv msgs mem s) (ha : Allowed msgs s irq) :
    ∃ s', isr msgs irq s = some s' ∧ Inv msgs mem s' := by
  obtain ⟨k, m, hat, hprog⟩ := id h
  have hlen : irq.status 0 ||| I2C_DEMO_S_LEN ≠ 0 := by
    unfold I2C_DEMO_S_LEN
    generalize irq.status 0 = val
    intro hzero
    have := congrArg (fun x : BitVec 32 => x.getLsbD 10) hzero
    simp at this
  unfold isr
  dsimp only
  split_ifs with herr hdone htxw h0 hnext hrxr h0
  · exact ⟨_, rfl, complete_inv hat hprog.last fun h => absurd h herr⟩
  · exact isrDone_inv hacc h irq
  · exact ⟨_, rfl, complete_inv hat hprog.last fun h => absurd h hlen⟩
  · -- the message is at its end, and there is another one
    have hwrite := hat.read_of_current ((ha 0).1 (Or.inl htxw))
    obtain ⟨hat', hnum, hmsgErr, hcompleted⟩ := fillTxfifo_spec irq 1 s hat hwrite
    obtain ⟨hne, hzero⟩ := hnext
    have hlt : k + 1 < msgs.length := by
      have := hat'.num
      omega
    obtain ⟨hmem, hreceived, hwritten⟩ := hat'.write hwrite
    obtain ⟨hltk, hget⟩ := List.getElem?_eq_some_iff.mp hat.msg
    have htake : contents mem (msgs.take (k + 1)) = contents mem (msgs.take k) ++ bytes mem m.buf m.len := by
      rw [List.take_succ_eq_append_getElem hltk, contents_append, hget, contents_write hwrite]
    rw [hzero, Nat.sub_zero] at hwritten
    obtain ⟨s', hrun, hat'', hrem, hmsgErr', hcompleted'⟩ := startTransfer_spec
      (s := { fillTxfifo irq 1 s with currMsg := (fillTxfifo irq 1 s).currMsg.map (· + 1) })
      (k := k + 1) (by rw [hat'.curr]; rfl) (List.getElem?_eq_getElem hlt) hat'.num hmem hreceived
      (hwritten.trans htake.symm) hat'.touched
    refine ⟨s', hrun, k + 1, _, hat'', hprog.moved h0 (hmsgErr'.trans hmsgErr) (hcompleted'.trans hcompleted)
      fun hpos hzero' => ?_⟩
    have := hpos _ (List.getElem_mem hlt)
    omega
  · have hwrite := hat.read_of_current ((ha 0).1 (Or.inl htxw))
    obtain ⟨hat', hnum, hmsgErr, hcompleted⟩ := fillTxfifo_spec irq 1 s hat hwrite
    refine ⟨_, rfl, k, m, hat', hprog.moved h0 hmsgErr hcompleted fun _ hzero => ?_⟩
    by_contra hne
    exact hnext ⟨hne, hzero⟩
  · exact ⟨_, rfl, complete_inv hat hprog.last fun h => absurd h hlen⟩
  · have hread := hat.read_of_current ((ha 0).2 (Or.inl hrxr))
    obtain ⟨hat', hnum, hmsgErr, hcompleted⟩ := drainRxfifo_spec irq 1 0 s hat hread
    exact ⟨_, rfl, k, m, hat', hprog.moved h0 hmsgErr hcompleted fun _ _ => hat'.num_of_read hacc hread⟩
  · exact ⟨s, rfl, h⟩

/-! ### Transfers -/

/-- Each of the interrupts is allowed where it comes. -/
def AllAllowed (msgs : List Msg) : State → List Irq → Prop
  | _, [] => True
  | s, irq :: irqs => Allowed msgs s irq ∧ ∀ s', isr msgs irq s = some s' → AllAllowed msgs s' irqs

theorem interrupts_inv (hacc : ∀ m ∈ msgs.dropLast, m.read = false) :
    ∀ (irqs : List Irq) {s : State}, Inv msgs mem s → AllAllowed msgs s irqs →
      ∃ s', interrupts msgs s irqs = some s' ∧ Inv msgs mem s'
  | [], s, h, _ => ⟨s, rfl, h⟩
  | irq :: irqs, s, h, ha => by
    obtain ⟨s₁, hrun, h₁⟩ := isr_inv hacc h ha.1
    obtain ⟨s₂, hrest, h₂⟩ := interrupts_inv hacc irqs h₁ (ha.2 s₁ hrun)
    refine ⟨s₂, ?_, h₂⟩
    unfold interrupts
    rw [List.foldlM_cons, hrun]
    exact hrest

/-- What a transfer has done. The bytes that were read are in the buffer of the last message, from its
first byte on, and no other memory was written. -/
structure Transferred (msgs : List Msg) (mem : ℕ → BitVec 8) (s : State) : Prop where
  written : s.written <+: contents mem msgs
  received : s.received = [] ∧ s.mem = mem ∨ ∃ m, msgs.getLast? = some m ∧ m.read = true ∧
    s.received.length ≤ m.len ∧ s.mem = stored mem m.buf s.received
  touched : ∀ x ∈ s.touched, InBuffer msgs x
  curr : ∃ k < msgs.length, s.currMsg = some k

/-- Every byte of every message has been transferred. -/
def Complete (msgs : List Msg) (mem : ℕ → BitVec 8) (s : State) : Prop :=
  s.written = contents mem msgs ∧ ∀ m, msgs.getLast? = some m → m.read = true → s.received.length = m.len

/-- The handler has no buffer. -/
structure Finished (s : State) : Prop where
  curr : s.currMsg = none
  remaining : s.msgBufRemaining = 0

/-- Nothing was moved. -/
structure Untouched (s s' : State) : Prop where
  mem : s'.mem = s.mem
  written : s'.written = s.written
  received : s'.received = s.received
  touched : s'.touched = s.touched

theorem contents_split (h : msgs[k]? = some m) : contents mem msgs =
    contents mem (msgs.take k) ++ (contents mem [m] ++ contents mem (msgs.drop (k + 1))) := by
  obtain ⟨hlt, hget⟩ := List.getElem?_eq_some_iff.mp h
  have hdrop : msgs.drop k = [m] ++ msgs.drop (k + 1) := by
    rw [List.drop_eq_getElem_cons hlt, hget]
    rfl
  rw [← contents_append, ← hdrop, ← contents_append, List.take_append_drop]

theorem At.getLast? (h : At msgs mem k m s) (hnum : s.numMsgs = 0) : msgs.getLast? = some m := by
  obtain ⟨hlt, -⟩ := List.getElem?_eq_some_iff.mp h.msg
  have hk : msgs.length - 1 = k := by
    have := h.num
    omega
  rw [List.getLast?_eq_getElem?, hk, h.msg]

theorem Inv.transferred (hacc : ∀ m ∈ msgs.dropLast, m.read = false) (h : Inv msgs mem s) :
    Transferred msgs mem s := by
  obtain ⟨k, m, hat, -⟩ := h
  obtain ⟨hlt, -⟩ := List.getElem?_eq_some_iff.mp hat.msg
  refine ⟨?_, ?_, hat.touched, k, hlt, hat.curr⟩
  · rw [contents_split hat.msg]
    by_cases hread : m.read = true
    · rw [(hat.read hread).2.1]
      exact List.prefix_append _ _
    · have hwrite := Bool.eq_false_iff.mpr hread
      rw [(hat.write hwrite).2.2, contents_write hwrite]
      refine List.prefix_append_right_inj _ |>.mpr ?_
      exact (bytes_initial mem m.buf (Nat.sub_le _ _)).trans (List.prefix_append _ _)
  · by_cases hread : m.read = true
    · obtain ⟨hmem, -, hlen⟩ := hat.read hread
      exact Or.inr ⟨m, hat.getLast? (hat.num_of_read hacc hread), hread, hlen ▸ Nat.sub_le _ _, hmem⟩
    · obtain ⟨hmem, hreceived, -⟩ := hat.write (Bool.eq_false_iff.mpr hread)
      exact Or.inl ⟨hreceived, hmem⟩

theorem Inv.complete (h : Inv msgs mem s) (hpos : ∀ m ∈ msgs, 0 < m.len) (hcompleted : s.completed = true)
    (herr : s.msgErr = 0) : Complete msgs mem s := by
  obtain ⟨k, m, hat, hprog⟩ := h
  have hzero := hprog.done hpos hcompleted herr
  have hnum := hprog.last hpos hzero
  have hlast := hat.getLast? hnum
  have hdrop : msgs.drop (k + 1) = [] := by
    rw [List.drop_eq_nil_iff]
    have := hat.num
    omega
  have hcontents : contents mem msgs = contents mem (msgs.take k) ++ (contents mem [m] ++ _) :=
    contents_split hat.msg
  rw [hdrop] at hcontents
  by_cases hread : m.read = true
  · obtain ⟨-, hwritten, hlen⟩ := hat.read hread
    refine ⟨?_, fun m' hm' _ => ?_⟩
    · rw [hwritten, hcontents, contents_read hread]
      exact (List.append_nil _).symm
    · rw [hlast] at hm'
      cases hm'
      rw [hlen, hzero, Nat.sub_zero]
  · have hwrite := Bool.eq_false_iff.mpr hread
    obtain ⟨-, -, hwritten⟩ := hat.write hwrite
    refine ⟨?_, fun m' hm' hread' => ?_⟩
    · rw [hwritten, hcontents, contents_write hwrite, hzero, Nat.sub_zero]
      exact congrArg _ (List.append_nil _).symm
    · rw [hlast] at hm'
      cases hm'
      exact absurd hread' hread

/-- After the transfer an interrupt touches no buffer. -/
theorem Finished.isr (h : Finished s) (msgs : List Msg) (irq : Irq) :
    ∃ s', isr msgs irq s = some s' ∧ Finished s' ∧ Untouched s s' := by
  obtain ⟨hcurr, hzero⟩ := h
  have hcomplete : ∀ e, Finished (complete s e) ∧ Untouched s (complete s e) :=
    fun e => ⟨⟨hcurr, hzero⟩, rfl, rfl, rfl, rfl⟩
  unfold Transfer.isr isrDone
  rw [hcurr]
  simp only [hzero, if_true, Option.bind_eq_bind, Option.bind_some]
  split_ifs
  · exact ⟨_, rfl, hcomplete _⟩
  · exact ⟨_, rfl, hcomplete _⟩
  · exact ⟨_, rfl, hcomplete _⟩
  · exact ⟨_, rfl, hcomplete _⟩
  · exact ⟨_, rfl, hcomplete _⟩
  · exact ⟨s, rfl, ⟨hcurr, hzero⟩, rfl, rfl, rfl, rfl⟩

theorem Finished.interrupts (msgs : List Msg) : ∀ (irqs : List Irq) {s : State}, Finished s →
    ∃ s', interrupts msgs s irqs = some s' ∧ Untouched s s'
  | [], s, _ => ⟨s, rfl, rfl, rfl, rfl, rfl⟩
  | irq :: irqs, s, h => by
    obtain ⟨s₁, hrun, h₁, hkeep₁⟩ := h.isr msgs irq
    obtain ⟨s₂, hrest, hkeep₂⟩ := Finished.interrupts msgs irqs h₁
    refine ⟨s₂, ?_, hkeep₂.mem.trans hkeep₁.mem, hkeep₂.written.trans hkeep₁.written,
      hkeep₂.received.trans hkeep₁.received, hkeep₂.touched.trans hkeep₁.touched⟩
    unfold Transfer.interrupts
    rw [List.foldlM_cons, hrun]
    exact hrest

theorem xferEnd_finished (msgs : List Msg) (s : State) (timeLeft : ℕ) :
    Finished (xferEnd msgs s timeLeft).2 ∧ Untouched s (xferEnd msgs s timeLeft).2 := by
  unfold xferEnd
  dsimp only
  split_ifs
  · exact ⟨⟨rfl, rfl⟩, rfl, rfl, rfl, rfl⟩
  · exact ⟨⟨rfl, rfl⟩, rfl, rfl, rfl, rfl⟩
  · exact ⟨⟨rfl, rfl⟩, rfl, rfl, rfl, rfl⟩
  · exact ⟨⟨rfl, rfl⟩, rfl, rfl, rfl, rfl⟩

theorem xferEnd_num {timeLeft : ℕ} (h : (xferEnd msgs s timeLeft).1 = msgs.length) :
    timeLeft ≠ 0 ∧ s.msgErr = 0 := by
  unfold xferEnd at h
  dsimp only at h
  split_ifs at h with h1 h2 h3
  · unfold ETIMEDOUT at h
    omega
  · exact ⟨h1, h2⟩
  · unfold EREMOTEIO at h
    omega
  · unfold EIO at h
    omega

/-- The state after the start. -/
theorem xferStart_inv (hne : msgs ≠ []) (hacc : ∀ m ∈ msgs.dropLast, m.read = false) (s₀ : State) :
    ∃ s, xferStart msgs s₀ = some (.ok s) ∧ Inv msgs s₀.mem s := by
  have hany : msgs.dropLast.any (·.read) = false := by
    rw [List.any_eq_false]
    exact fun m hm => Bool.eq_false_iff.mp (hacc m hm)
  have hlen := List.length_pos_iff.mpr hne
  unfold xferStart
  rw [hany, if_neg Bool.false_ne_true]
  obtain ⟨s, hrun, hat, hrem, -, hcompleted⟩ := @startTransfer_spec msgs s₀.mem
    { s₀ with
      currMsg := some 0, numMsgs := msgs.length, completed := false
      written := [], received := [], touched := [] }
    0 _ rfl (List.getElem?_eq_getElem hlen) rfl rfl rfl rfl fun x hx => absurd hx List.not_mem_nil
  dsimp only
  rw [hrun]
  refine ⟨s, rfl, 0, _, hat, fun hpos hzero => ?_, fun _ hc => ?_⟩
  · have := hpos _ (List.getElem_mem hlen)
    omega
  · rw [hcompleted] at hc
    cases hc

/-- **Transfers.** For every array of messages of which at most the last one is a read, and whatever the
interrupts between the start and the finish: bytes are written in the order of the write messages and
stored from the first byte of the read message on, inside of the buffers; after the finish no buffer is
touched; and if no message is empty and the wait has ended with the completion, the number of messages
is returned only if all bytes have been transferred. -/
theorem xfer_spec (hne : msgs ≠ []) (hacc : ∀ m ∈ msgs.dropLast, m.read = false) (s₀ : State) :
    ∃ s₁, xferStart msgs s₀ = some (.ok s₁) ∧ ∀ irqs, AllAllowed msgs s₁ irqs →
      ∃ s, interrupts msgs s₁ irqs = some s ∧ Transferred msgs s₀.mem s ∧ ∀ timeLeft,
        (∀ later, ∃ s', interrupts msgs (xferEnd msgs s timeLeft).2 later = some s' ∧ Untouched s s') ∧
          ((timeLeft ≠ 0 → s.completed = true) → (∀ m ∈ msgs, 0 < m.len) →
            (xferEnd msgs s timeLeft).1 = msgs.length → Complete msgs s₀.mem s) := by
  obtain ⟨s₁, hstart, h₁⟩ := xferStart_inv hne hacc s₀
  refine ⟨s₁, hstart, fun irqs ha => ?_⟩
  obtain ⟨s, hrun, h⟩ := interrupts_inv hacc irqs h₁ ha
  refine ⟨s, hrun, h.transferred hacc, fun timeLeft => ⟨fun later => ?_, fun hwait hpos hnum => ?_⟩⟩
  · obtain ⟨hfinished, hkeep⟩ := xferEnd_finished msgs s timeLeft
    obtain ⟨s', hlater, hkeep'⟩ := Finished.interrupts msgs later hfinished
    exact ⟨s', hlater, hkeep'.mem.trans hkeep.mem, hkeep'.written.trans hkeep.written,
      hkeep'.received.trans hkeep.received, hkeep'.touched.trans hkeep.touched⟩
  · obtain ⟨htime, herr⟩ := xferEnd_num hnum
    exact h.complete hpos (hwait htime) herr

/-- A byte to write and a byte to read after it. -/
def writeRead : List Msg := [⟨0x50, false, 1, 0⟩, ⟨0x50, true, 1, 1⟩]

/-- The device after the probe. -/
def probed : State := ⟨none, 0, 0, 0, 0, false, 0, 0, 0, fun _ => 0, [], [], []⟩

theorem xfer_spec_writeRead :
    ∃ s₁, xferStart writeRead probed = some (.ok s₁) ∧ ∀ irqs, AllAllowed writeRead s₁ irqs →
      ∃ s, interrupts writeRead s₁ irqs = some s ∧ Transferred writeRead probed.mem s := by
  have hne : writeRead ≠ [] := List.cons_ne_nil _ _
  obtain ⟨s₁, hstart, h⟩ := xfer_spec hne (by decide) probed
  refine ⟨s₁, hstart, fun irqs ha => ?_⟩
  obtain ⟨s, hrun, hs, -⟩ := h irqs ha
  exact ⟨s, hrun, hs⟩

end HardStack.I2c.Transfer
