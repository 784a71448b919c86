import MCertiKOS.Library.LinkedQueue
import MCertiKOS.Memory.UserCopy

/-!
# Synchronous messages

`sys_sync_send` and `sys_sync_recv` of `kern/trap/TSyscall/TSyscall.c` over the message blocks and the message queue
of `kern/lib/ipc.c`. Both calls hold `msg_lock` except while they sleep, so a call is a sequence of steps that end in
`thread_sleep` or in the return: the first step, and one `resume` for each time the process is woken, at any time,
and looks at the queue again. The rest of the kernel and the user programs change only the memory.

One field is not in the source: `log` lists what has happened. A receive is logged with what it has read in the block
of the sender, so that `sync_rendezvous` has something to say: the events about one sender are rounds of a send, the
one receive of it by the process that was named, and the return of the send.
-/

namespace MCertiKOS.Ipc

open Library Memory Paging Relation List Links
open Function (update update_of_ne update_self)

abbrev MSG_BUF_SIZE : ℕ := 100

/-- The arguments of `sys_sync_send`. -/
structure Message where
  recvPid : ℕ
  bufferAddr : UInt32
  length : UInt32
  deriving DecidableEq

/-- `struct MsgBlock` without the links. Of `recv_cv` and `send_cv` only the addresses are used. -/
structure MsgBlock extends Message where
  sendPid : ℕ

/-- The addresses that processes sleep on. -/
inductive Chan where
  /-- `&msgBlock[pid].send_cv`. -/
  | sendCv (pid : ℕ)
  /-- `&msgBlock[pid].recv_cv`. -/
  | recvCv (pid : ℕ)
  deriving DecidableEq

/-- The system call that a process is in. -/
inductive Call where
  /-- Neither of the two. -/
  | none
  /-- `sys_sync_send`, in its loop. -/
  | send
  /-- `sys_sync_recv`, in its loop. -/
  | recv (sendPid : ℕ) (addr length : UInt32)
  deriving DecidableEq

/-- What happens to messages. -/
inductive Event where
  /-- `pid` has put a message in the queue. -/
  | sent (pid : ℕ) (m : Message)
  /-- `pid` has received from `sendPid`, whose block held `m`; the result is `k`. -/
  | received (pid sendPid : ℕ) (m : Message) (k : UInt32)
  /-- The `sys_sync_send` of `pid` returns. -/
  | returned (pid : ℕ)
  deriving DecidableEq

def Event.sender : Event → ℕ
  | .sent pid _ => pid
  | .received _ sendPid _ _ => sendPid
  | .returned pid => pid

/-- The messages, and what is copied for them. -/
structure State where
  /-- `msgBlock[pid].prev`, `msgBlock[pid].next` and `msgQueue`. -/
  links : Links ℕ
  /-- `msgBlock`. -/
  block : ℕ → MsgBlock
  msgBuf : List UInt8
  /-- The address of `msg_buf`: the kernel lies below user memory. -/
  bufAddr : { a : UInt32 // a.toNat + MSG_BUF_SIZE ≤ VM_USERLO }
  vm : Vm
  call : ℕ → Call
  chan : ℕ → Option Chan
  log : List Event

/-! ### The queue -/

def msgEnqueue (q : Links ℕ) (sendPid : ℕ) : Links ℕ :=
  if q.tail = NUM_IDS then
    { prev := update q.prev sendPid NUM_IDS
      next := update q.next sendPid NUM_IDS
      head := sendPid
      tail := sendPid }
  else
    { prev := update q.prev sendPid q.tail
      next := update (update q.next q.tail sendPid) sendPid NUM_IDS
      head := q.head
      tail := sendPid }

def msgRemove (q : Links ℕ) (sendPid : ℕ) : Links ℕ :=
  let prev := q.prev sendPid
  let next := q.next sendPid
  let q₁ : Links ℕ :=
    if prev = NUM_IDS then
      if next = NUM_IDS then { q with head := NUM_IDS, tail := NUM_IDS }
      else { q with head := next, prev := update q.prev next NUM_IDS }
    else
      if next = NUM_IDS then { q with tail := prev, next := update q.next prev NUM_IDS }
      else { q with next := update q.next prev next, prev := update q.prev next prev }
  { q₁ with prev := update q₁.prev sendPid NUM_IDS, next := update q₁.next sendPid NUM_IDS }

/-- The loop of `msg_getBlockBySendID` from `pid` on; `none` if it takes more than `fuel` rounds. -/
def searchFrom (block : ℕ → MsgBlock) (q : Links ℕ) (sendPid : ℕ) : ℕ → ℕ → Option ℕ
  | 0, _ => none
  | fuel + 1, pid =>
    if pid = NUM_IDS then some NUM_IDS
    else if (block pid).sendPid = sendPid then some sendPid
    else searchFrom block q sendPid fuel (q.next pid)

/-- The body of the loop of `ipc_copy`: `pt_copyin` overwrites the buffer as far as it copies, and `pt_copyout` takes
`len` bytes of it. Neither result is looked at. -/
def ipcCopyChunk (bufAddr : UInt32) (destPid sourcePid : ℕ) (dest source : UInt32) (len : ℕ) (buf : List UInt8) (v : Vm) :
    List UInt8 × Vm :=
  let r := v.ptCopyin sourcePid source bufAddr (UInt32.ofNat len)
  let buf' := r.bytes ++ buf.drop r.bytes.length
  (buf', (r.vm.ptCopyout destPid bufAddr dest (buf'.take len)).vm)

/-- The loop of `ipc_copy`. Each round takes at least one byte off `length`. -/
def ipcCopyLoop (bufAddr : UInt32) (destPid sourcePid : ℕ) :
    ℕ → UInt32 → UInt32 → ℤ → List UInt8 → Vm → List UInt8 × Vm
  | 0, _, _, _, buf, v => (buf, v)
  | fuel + 1, dest, source, length, buf, v =>
    if 0 < length then
      let len := if length < MSG_BUF_SIZE then length.toNat else MSG_BUF_SIZE
      let r := ipcCopyChunk bufAddr destPid sourcePid dest source len buf v
      ipcCopyLoop bufAddr destPid sourcePid fuel (dest + UInt32.ofNat len) (source + UInt32.ofNat len) (length - len) r.1 r.2
    else (buf, v)

/-- `ipc_copy`, whose `length` is an `int`. -/
def ipcCopy (bufAddr : UInt32) (destPid : ℕ) (dest : UInt32) (sourcePid : ℕ) (source length : UInt32) (buf : List UInt8)
    (v : Vm) : List UInt8 × Vm :=
  ipcCopyLoop bufAddr destPid sourcePid length.toNat dest source length.toBitVec.toInt buf v

namespace State

/-- `msg_getBlockBySendID`. There are at most `NUM_IDS` blocks to look at. -/
def msgGetBlockBySendID (s : State) (sendPid : ℕ) : Option ℕ :=
  searchFrom s.block s.links sendPid (NUM_IDS + 1) s.links.head

def threadSleep (s : State) (pid : ℕ) (c : Chan) : State := { s with chan := update s.chan pid (some c) }

/-- `thread_wakeup`, whose loop starts at `1`. -/
def threadWakeup (s : State) (c : Chan) : State :=
  { s with chan := fun pid => if 1 ≤ pid ∧ pid < NUM_IDS ∧ s.chan pid = some c then none else s.chan pid }

/-! ### The calls -/

/-- The loop of `sys_sync_send`, up to `thread_sleep` or the return. -/
def sendLoop (s : State) (pid : ℕ) : Option State :=
  (s.msgGetBlockBySendID pid).map fun b =>
    if b ≠ NUM_IDS then s.threadSleep pid (.recvCv pid)
    else { s with call := update s.call pid .none, log := s.log ++ [.returned pid] }

/-- The part of `sys_sync_send` before its loop. -/
def enterSend (s : State) (pid : ℕ) (m : Message) : State :=
  { s with
    block := update s.block pid { s.block pid with toMessage := m }
    links := msgEnqueue s.links pid
    call := update s.call pid .send
    log := s.log ++ [.sent pid m] }

def sysSyncSend (s : State) (pid : ℕ) (m : Message) : Option State :=
  ((s.enterSend pid m).threadWakeup (.sendCv pid)).sendLoop pid

def copyLength (s : State) (sendPid : ℕ) (recvLength : UInt32) : UInt32 :=
  if (s.block sendPid).length < recvLength then (s.block sendPid).length else recvLength

/-- The part of `sys_sync_recv` after its loop. -/
def receive (s : State) (pid sendPid : ℕ) (addr recvLength : UInt32) : State :=
  let m := (s.block sendPid).toMessage
  let k := s.copyLength sendPid recvLength
  let r := ipcCopy s.bufAddr pid addr sendPid m.bufferAddr k s.msgBuf s.vm
  let t := { s with msgBuf := r.1, vm := r.2, links := msgRemove s.links sendPid }.threadWakeup (.recvCv sendPid)
  { t with call := update t.call pid .none, log := t.log ++ [.received pid sendPid m k] }

/-- The loop of `sys_sync_recv`, up to `thread_sleep`, and what follows it. -/
def recvLoop (s : State) (pid sendPid : ℕ) (addr recvLength : UInt32) : Option State :=
  (s.msgGetBlockBySendID sendPid).map fun b =>
    if b = NUM_IDS ∨ (s.block sendPid).recvPid ≠ pid then s.threadSleep pid (.sendCv sendPid)
    else s.receive pid sendPid addr recvLength

def sysSyncRecv (s : State) (pid sendPid : ℕ) (addr recvLength : UInt32) : Option State :=
  { s with call := update s.call pid (.recv sendPid addr recvLength) }.recvLoop pid sendPid addr recvLength

def resume (s : State) (pid : ℕ) : Option State :=
  match s.call pid with
  | .none => Option.none
  | .send => s.sendLoop pid
  | .recv sendPid addr recvLength => s.recvLoop pid sendPid addr recvLength

end State

/-! ### Steps -/

def userStore (v : Vm) (p a : ℕ) (b : UInt8) : Vm :=
  if v.Present p (a / PAGESIZE) then v.writeBytes (v.physOf p a) [b] else v

/-- What the rest of the kernel and the user programs do to the memory. -/
inductive MemAct where
  /-- A call of the memory manager. -/
  | manager (a : VmAct)
  /-- A copy between the kernel and user memory. -/
  | copy (p : ℕ) (c : CopyCall)
  /-- A store of a user program. -/
  | store (p a : ℕ) (b : UInt8)

def MemAct.run (v : Vm) : MemAct → Vm
  | .manager a => v.step a
  | .copy p c => (c.run v p).vm
  | .store p a b => userStore v p a b

/-- A step of the system. -/
inductive Act where
  /-- A call of `sys_sync_send`. -/
  | send (pid : ℕ) (m : Message)
  /-- A call of `sys_sync_recv`. -/
  | recv (pid sendPid : ℕ) (addr recvLength : UInt32)
  /-- A process in one of the calls runs. -/
  | resume (pid : ℕ)
  /-- A process is woken. -/
  | wake (pid : ℕ)
  /-- The memory changes. -/
  | memory (a : MemAct)

/-- The process ids are valid. Those of user processes start at `1`. -/
def Act.Valid : Act → Prop
  | .send pid m => 1 ≤ pid ∧ pid < NUM_IDS ∧ m.recvPid < NUM_IDS
  | .recv pid sendPid _ _ => 1 ≤ pid ∧ pid < NUM_IDS ∧ sendPid < NUM_IDS
  | _ => True

instance (a : Act) : Decidable a.Valid := by
  cases a <;> unfold Act.Valid <;> infer_instance

namespace State

/-- One step; `none` if it is not possible. -/
def act (s : State) : Act → Option State
  | .send pid m => if s.call pid = .none then s.sysSyncSend pid m else none
  | .recv pid sendPid addr recvLength => if s.call pid = .none then s.sysSyncRecv pid sendPid addr recvLength else none
  | .resume pid => if s.chan pid = none then s.resume pid else none
  | .wake pid => some { s with chan := update s.chan pid none }
  | .memory a => some { s with vm := a.run s.vm }

/-- `ipc_init`, with whatever is in the buffer. -/
def ipcInit (msgBuf : List UInt8) (bufAddr : { a : UInt32 // a.toNat + MSG_BUF_SIZE ≤ VM_USERLO }) (vm : Vm) : State where
  links := ⟨NUM_IDS, NUM_IDS, fun _ => NUM_IDS, fun _ => NUM_IDS⟩
  block pid := ⟨⟨NUM_IDS, 0, 0⟩, pid⟩
  msgBuf := msgBuf
  bufAddr := bufAddr
  vm := vm
  call _ := .none
  chan _ := none
  log := []

end State

def Step (s t : State) : Prop := ∃ a : Act, a.Valid ∧ s.act a = some t

def State.acts (s : State) (l : List Act) : Option State := l.foldlM State.act s

variable {s t : State} {l : List ℕ} {p : ℕ} {e : Event}

theorem State.reach_acts {l : List Act} (hl : ∀ a ∈ l, a.Valid) (h : s.acts l = some t) :
    ReflTransGen Step s t := by
  induction l generalizing s with
  | nil =>
    obtain rfl := Option.some.inj h
    exact .refl
  | cons a l ih =>
    obtain ⟨u, hu, ht⟩ := Option.bind_eq_some_iff.mp h
    exact .head ⟨a, hl a (by simp), hu⟩ (ih (fun b hb => hl b (by simp [hb])) ht)

/-! ### Rounds -/

/-- How far a sender is in its round. -/
inductive Phase where
  /-- It is not in `sys_sync_send`. -/
  | outside
  /-- Its message is in the queue. -/
  | waiting (m : Message)
  /-- Its message has been received. -/
  | taken
  deriving DecidableEq

/-- The events about a sender: complete rounds, each of them a send, one receive of it by the process that it names,
which names the sender, and the return, and the beginning of one more. -/
inductive Rounds (p : ℕ) : Phase → List Event → Prop
  /-- Nothing has happened. -/
  | start : Rounds p .outside []
  /-- A message is sent. -/
  | sent {l : List Event} (m : Message) : Rounds p .outside l → Rounds p (.waiting m) (l ++ [.sent p m])
  /-- It is received. -/
  | received {l : List Event} {m : Message} (k : UInt32) :
      Rounds p (.waiting m) l → Rounds p .taken (l ++ [.received m.recvPid p m k])
  /-- The send returns. -/
  | returned {l : List Event} : Rounds p .taken l → Rounds p .outside (l ++ [.returned p])

def about (p : ℕ) (log : List Event) : List Event := log.filter fun e => e.sender = p

theorem about_append_self (log : List Event) (h : e.sender = p) :
    about p (log ++ [e]) = about p log ++ [e] := by
  simp [about, h]

theorem about_append_of_ne (log : List Event) (h : e.sender ≠ p) :
    about p (log ++ [e]) = about p log := by
  simp [about, h]

/-! ### The queue as a list -/

theorem msgEnqueue_eq (q : Links ℕ) {pid : ℕ} (h : pid ≠ NUM_IDS) : msgEnqueue q pid = q.enqueue NUM_IDS pid := by
  unfold msgEnqueue enqueue link
  by_cases ht : q.tail = NUM_IDS
  · simp [ht, h]
  · simp [ht, h]

theorem msgRemove_eq (q : Links ℕ) (pid : ℕ) : msgRemove q pid = q.remove NUM_IDS pid := by
  unfold msgRemove remove link detach
  by_cases hp : q.prev pid = NUM_IDS <;> by_cases hn : q.next pid = NUM_IDS <;> simp [hp, hn]

theorem searchFrom_eq {block : ℕ → MsgBlock} {q : Links ℕ} (sendPid : ℕ) {a : ℕ} {fuel : ℕ}
    (hnil : NUM_IDS ∉ l) (hblock : ∀ i ∈ l, (block i).sendPid = i) (hfuel : l.length < fuel)
    (hc : List.IsChain (Links.Adj NUM_IDS q) (a :: (l ++ [NUM_IDS]))) :
    searchFrom block q sendPid fuel (q.succ NUM_IDS a) = some (if sendPid ∈ l then sendPid else NUM_IDS) := by
  induction l generalizing a fuel with
  | nil =>
    obtain ⟨fuel, rfl⟩ := Nat.exists_eq_add_of_lt hfuel
    rw [nil_append, isChain_pair] at hc
    rw [hc.1]
    simp [searchFrom]
  | cons b l ih =>
    obtain ⟨hb, hnil⟩ := not_or.mp (mt mem_cons.mpr hnil)
    rw [cons_append, isChain_cons_cons] at hc
    cases fuel with
    | zero => simp at hfuel
    | succ fuel =>
      rw [hc.1.1, searchFrom, if_neg (Ne.symm hb), hblock b (by simp), ← succ_of_ne (Ne.symm hb)]
      by_cases hs : b = sendPid
      · rw [if_pos hs, if_pos (by simp [hs])]
      · rw [if_neg hs, ih hnil (fun i hi => hblock i (by simp [hi])) (by simpa using hfuel) hc.2]
        simp [Ne.symm hs]

/-! ### The invariant -/

/-- The invariant, with the queue as a list. -/
structure Inv (s : State) (l : List ℕ) : Prop where
  rep : s.links.Rep NUM_IDS l
  pids : ∀ p ∈ l, 1 ≤ p ∧ p < NUM_IDS
  sendPid : ∀ p, (s.block p).sendPid = p
  /-- A process in the queue is in `sys_sync_send`. -/
  sending : ∀ p ∈ l, s.call p = .send
  callers : ∀ p, s.call p ≠ .none → 1 ≤ p ∧ p < NUM_IDS
  /-- A process that sleeps on `recv_cv` is in the queue. -/
  asleep : ∀ p c, s.chan p = some (.recvCv c) → c = p ∧ p ∈ l
  /-- Outside of `sys_sync_send` a sender has completed its rounds. -/
  outside : ∀ p, s.call p ≠ .send → Rounds p .outside (about p s.log)
  waiting : ∀ p ∈ l, Rounds p (.waiting (s.block p).toMessage) (about p s.log)
  taken : ∀ p ∉ l, s.call p = .send → Rounds p .taken (about p s.log)

namespace Inv

variable {s : State} {l : List ℕ}

section

variable (h : Inv s l)
include h

theorem length_le : l.length ≤ NUM_IDS := by
  have hsub : l.toFinset ⊆ Finset.range NUM_IDS := by
    intro p hp
    rw [mem_toFinset] at hp
    exact Finset.mem_range.mpr (h.pids p hp).2
  have := Finset.card_le_card hsub
  rwa [toFinset_card_of_nodup h.rep.nodup, Finset.card_range] at this

theorem msgGetBlockBySendID (p : ℕ) : s.msgGetBlockBySendID p = some (if p ∈ l then p else NUM_IDS) := by
  unfold State.msgGetBlockBySendID
  rw [← succ_nil NUM_IDS]
  exact searchFrom_eq p h.rep.nil_notMem (fun i _ => h.sendPid i) (Nat.lt_succ_of_le h.length_le) h.rep.chain

omit h in
theorem chan (h : Inv s l) {chan : ℕ → Option Chan} (hc : ∀ p c, chan p = some (.recvCv c) → c = p ∧ p ∈ l) :
    Inv { s with chan := chan } l :=
  ⟨h.rep, h.pids, h.sendPid, h.sending, h.callers, hc, h.outside, h.waiting, h.taken⟩

theorem threadWakeup (c : Chan) : Inv (s.threadWakeup c) l := by
  refine h.chan fun p c' hp => h.asleep p c' ?_
  split_ifs at hp
  exact hp

theorem threadSleep (p : ℕ) {c : Chan} (hc : ∀ q, c = .recvCv q → q = p ∧ p ∈ l) : Inv (s.threadSleep p c) l := by
  refine h.chan fun q c' hq => ?_
  by_cases hqp : q = p
  · subst hqp
    rw [update_self] at hq
    exact hc c' (Option.some.inj hq)
  · rw [update_of_ne hqp] at hq
    exact h.asleep q c' hq

theorem memory (v : Vm) (buf : List UInt8) : Inv { s with vm := v, msgBuf := buf } l :=
  ⟨h.rep, h.pids, h.sendPid, h.sending, h.callers, h.asleep, h.outside, h.waiting, h.taken⟩

variable {p q : ℕ} {t : State}

theorem setCall (hlt : 1 ≤ p ∧ p < NUM_IDS) (hp : s.call p ≠ .send) {c : Call} (hc : c ≠ .send) :
    Inv { s with call := update s.call p c } l := by
  have hcall : ∀ q, update s.call p c q = .send ↔ s.call q = .send := by
    intro q
    by_cases hq : q = p
    · subst hq
      simp [hp, hc]
    · rw [update_of_ne hq]
  refine ⟨h.rep, h.pids, h.sendPid, fun q hq => (hcall q).mpr (h.sending q hq), fun q hq => ?_, h.asleep,
    fun q hq => h.outside q (mt (hcall q).mpr hq), h.waiting, fun q hq hqc => h.taken q hq ((hcall q).mp hqc)⟩
  by_cases hqp : q = p
  · rwa [hqp]
  · exact h.callers q fun e => hq ((update_of_ne hqp _ _).trans e)

theorem enterSend (hp : 1 ≤ p) (hlt : p < NUM_IDS) (hc : s.call p ≠ .send) (m : Message) :
    Inv (s.enterSend p m) (l ++ [p]) := by
  have hpl : p ∉ l := fun hm => hc (h.sending p hm)
  have hlog : ∀ q, q ≠ p → about q (s.enterSend p m).log = about q s.log := fun q hq =>
    about_append_of_ne _ (Ne.symm hq)
  have hself : Rounds p (.waiting m) (about p (s.enterSend p m).log) := by
    show Rounds p (.waiting m) (about p (s.log ++ [.sent p m]))
    rw [about_append_self (p := p) _ rfl]
    exact (h.outside p hc).sent m
  refine ⟨?_, fun q hq => ?_, fun q => ?_, fun q hq => ?_, fun q hq => ?_, fun q c hq => ?_, fun q hq => ?_,
    fun q hq => ?_, fun q hq hqc => ?_⟩
  · show (msgEnqueue s.links p).Rep NUM_IDS (l ++ [p])
    rw [msgEnqueue_eq _ hlt.ne]
    exact h.rep.enqueue hpl hlt.ne
  · rcases mem_append.mp hq with hq | hq
    · exact h.pids q hq
    · rw [mem_singleton.mp hq]
      exact ⟨hp, hlt⟩
  · show (update s.block p _ q).sendPid = q
    by_cases hqp : q = p
    · subst hqp
      rw [update_self]
      exact h.sendPid q
    · rw [update_of_ne hqp]
      exact h.sendPid q
  · show update s.call p .send q = .send
    by_cases hqp : q = p
    · rw [hqp, update_self]
    · rw [update_of_ne hqp]
      exact h.sending q (by simpa [hqp] using hq)
  · by_cases hqp : q = p
    · rw [hqp]
      exact ⟨hp, hlt⟩
    · exact h.callers q fun e => hq ((update_of_ne hqp _ _).trans e)
  · obtain ⟨rfl, hm⟩ := h.asleep q c hq
    exact ⟨rfl, mem_append_left _ hm⟩
  · have hqp : q ≠ p := by
      rintro rfl
      exact hq (update_self _ _ _)
    rw [hlog q hqp]
    exact h.outside q fun e => hq ((update_of_ne hqp _ _).trans e)
  · show Rounds q (.waiting (update s.block p { s.block p with toMessage := m } q).toMessage) _
    by_cases hqp : q = p
    · subst hqp
      rw [update_self]
      exact hself
    · rw [hlog q hqp, update_of_ne hqp]
      exact h.waiting q (by simpa [hqp] using hq)
  · have hqp : q ≠ p := by
      rintro rfl
      exact hq (by simp)
    rw [hlog q hqp]
    exact h.taken q (fun hm => hq (mem_append_left _ hm)) ((update_of_ne hqp _ _).symm.trans hqc)

theorem returned (hp : p ∉ l) (hc : s.call p = .send) :
    Inv { s with call := update s.call p .none, log := s.log ++ [.returned p] } l := by
  have hlog : ∀ q, q ≠ p → about q (s.log ++ [.returned p]) = about q s.log := fun q hq =>
    about_append_of_ne _ (Ne.symm hq)
  have hne : ∀ q ∈ l, q ≠ p := by
    rintro q hq rfl
    exact hp hq
  refine ⟨h.rep, h.pids, h.sendPid, fun q hq => ?_, fun q hq => ?_, h.asleep, fun q hq => ?_, fun q hq => ?_,
    fun q hq hqc => ?_⟩
  · show update s.call p .none q = .send
    rw [update_of_ne (hne q hq)]
    exact h.sending q hq
  · have hqp : q ≠ p := by
      rintro rfl
      exact hq (update_self _ _ _)
    exact h.callers q fun e => hq ((update_of_ne hqp _ _).trans e)
  · show Rounds q .outside (about q (s.log ++ [.returned p]))
    by_cases hqp : q = p
    · subst hqp
      rw [about_append_self (p := q) _ rfl]
      exact (h.taken q hp hc).returned
    · rw [hlog q hqp]
      exact h.outside q fun e => hq ((update_of_ne hqp _ _).trans e)
  · show Rounds q _ (about q (s.log ++ [.returned p]))
    rw [hlog q (hne q hq)]
    exact h.waiting q hq
  · have hqp : q ≠ p := by
      rintro rfl
      have : update s.call q .none q = .send := hqc
      rw [update_self] at this
      cases this
    show Rounds q .taken (about q (s.log ++ [.returned p]))
    rw [hlog q hqp]
    exact h.taken q hq ((update_of_ne hqp _ _).symm.trans hqc)

theorem sendLoop (hc : s.call p = .send) (ht : s.sendLoop p = some t) : ∃ l, Inv t l := by
  unfold State.sendLoop at ht
  rw [h.msgGetBlockBySendID p, Option.map_some, Option.some.injEq] at ht
  by_cases hp : p ∈ l
  · rw [if_pos hp, if_pos (h.pids p hp).2.ne] at ht
    subst ht
    refine ⟨l, h.threadSleep p fun q hq => ?_⟩
    cases hq
    exact ⟨rfl, hp⟩
  · rw [if_neg hp, if_neg (not_not.mpr rfl)] at ht
    subst ht
    exact ⟨l, h.returned hp hc⟩

omit h in
theorem receive {l1 l2 : List ℕ} (h : Inv s (l1 ++ q :: l2)) (hp : s.call p ≠ .send)
    (hq : (s.block q).recvPid = p) (addr len : UInt32) : Inv (s.receive p q addr len) (l1 ++ l2) := by
  have hnd := h.rep.nodup
  rw [nodup_middle, nodup_cons] at hnd
  have hmem : ∀ r, r ∈ l1 ++ q :: l2 ↔ r = q ∨ r ∈ l1 ++ l2 := by
    intro r
    simp only [mem_append, mem_cons]
    tauto
  have hqs := h.sending q ((hmem q).mpr (.inl rfl))
  have hpq : q ≠ p := by
    rintro rfl
    exact hp hqs
  set k := s.copyLength q len
  have hlog : ∀ r, r ≠ q → about r (s.log ++ [.received p q (s.block q).toMessage k]) = about r s.log := fun r hr =>
    about_append_of_ne _ (Ne.symm hr)
  have hcall : ∀ r, update s.call p .none r = .send ↔ s.call r = .send := by
    intro r
    by_cases hr : r = p
    · subst hr
      simp [hp]
    · rw [update_of_ne hr]
  refine ⟨?_, fun r hr => ?_, h.sendPid, fun r hr => ?_, fun r hr => ?_, fun r c hr => ?_, fun r hr => ?_, fun r hr => ?_,
    fun r hr hrc => ?_⟩
  · show (msgRemove s.links q).Rep NUM_IDS (l1 ++ l2)
    rw [msgRemove_eq]
    exact h.rep.remove
  · exact h.pids r ((hmem r).mpr (.inr hr))
  · exact (hcall r).mpr (h.sending r ((hmem r).mpr (.inr hr)))
  · have hrp : r ≠ p := by
      rintro rfl
      exact hr (update_self _ _ _)
    exact h.callers r fun e => hr ((update_of_ne hrp _ _).trans e)
  · -- the sender was woken if it slept
    have hwoken : (if 1 ≤ r ∧ r < NUM_IDS ∧ s.chan r = some (.recvCv q) then none else s.chan r) = some (.recvCv c) := hr
    by_cases hw : 1 ≤ r ∧ r < NUM_IDS ∧ s.chan r = some (.recvCv q)
    · rw [if_pos hw] at hwoken
      cases hwoken
    · rw [if_neg hw] at hwoken
      obtain ⟨rfl, hm⟩ := h.asleep r c hwoken
      refine ⟨rfl, ((hmem c).mp hm).resolve_left ?_⟩
      rintro rfl
      exact hw ⟨(h.pids c hm).1, (h.pids c hm).2, hwoken⟩
  · have hrc : s.call r ≠ .send := mt (hcall r).mpr hr
    have hrq : r ≠ q := by
      rintro rfl
      exact hrc hqs
    show Rounds r .outside (about r (s.log ++ [.received p q (s.block q).toMessage k]))
    rw [hlog r hrq]
    exact h.outside r hrc
  · have hrq : r ≠ q := by
      rintro rfl
      exact hnd.1 hr
    show Rounds r _ (about r (s.log ++ [.received p q (s.block q).toMessage k]))
    rw [hlog r hrq]
    exact h.waiting r ((hmem r).mpr (.inr hr))
  · show Rounds r .taken (about r (s.log ++ [.received p q (s.block q).toMessage k]))
    by_cases hrq : r = q
    · subst hrq
      rw [about_append_self (p := r) _ rfl, ← hq]
      exact (h.waiting r ((hmem r).mpr (.inl rfl))).received k
    · rw [hlog r hrq]
      exact h.taken r (fun hm => hr (((hmem r).mp hm).resolve_left hrq)) ((hcall r).mp hrc)

theorem recvLoop (hc : s.call p ≠ .send) {addr len : UInt32}
    (ht : s.recvLoop p q addr len = some t) : ∃ l, Inv t l := by
  unfold State.recvLoop at ht
  rw [h.msgGetBlockBySendID q, Option.map_some, Option.some.injEq] at ht
  by_cases hw : (if q ∈ l then q else NUM_IDS) = NUM_IDS ∨ (s.block q).recvPid ≠ p
  · rw [if_pos hw] at ht
    subst ht
    refine ⟨l, h.threadSleep p fun _ hq => ?_⟩
    cases hq
  · rw [if_neg hw] at ht
    obtain ⟨hq, hrecv⟩ := not_or.mp hw
    have hql : q ∈ l := by
      by_contra hn
      exact hq (if_neg hn)
    obtain ⟨l1, l2, rfl⟩ := append_of_mem hql
    subst ht
    exact ⟨l1 ++ l2, h.receive hc (not_not.mp hrecv) addr len⟩

theorem act {a : Act} (ha : a.Valid) (ht : s.act a = some t) : ∃ l, Inv t l := by
  cases a with
  | send p m =>
    rw [State.act] at ht
    split_ifs at ht with hc
    obtain ⟨h1, h2, -⟩ := ha
    have he := (h.enterSend h1 h2 (by rw [hc]; decide) m).threadWakeup (.sendCv p)
    exact he.sendLoop (update_self _ _ _) ht
  | recv p q addr len =>
    rw [State.act] at ht
    split_ifs at ht with hc
    have hne : s.call p ≠ .send := by rw [hc]; decide
    refine (h.setCall ⟨ha.1, ha.2.1⟩ hne (c := .recv q addr len) (by simp)).recvLoop (p := p) ?_ ht
    show update s.call p (.recv q addr len) p ≠ .send
    rw [update_self]
    simp
  | resume p =>
    rw [State.act] at ht
    split_ifs at ht
    unfold State.resume at ht
    split at ht
    · cases ht
    · exact h.sendLoop ‹_› ht
    · refine h.recvLoop (p := p) ?_ ht
      rw [‹s.call p = _›]
      simp
  | wake p =>
    obtain rfl := Option.some.inj ht
    refine ⟨l, h.chan fun q c hq => ?_⟩
    by_cases hqp : q = p
    · subst hqp
      rw [update_self] at hq
      cases hq
    · rw [update_of_ne hqp] at hq
      exact h.asleep q c hq
  | memory a =>
    obtain rfl := Option.some.inj ht
    exact ⟨l, h.memory _ _⟩

end

end Inv

theorem inv_ipcInit (msgBuf : List UInt8) (bufAddr : { a : UInt32 // a.toNat + MSG_BUF_SIZE ≤ VM_USERLO }) (vm : Vm) :
    Inv (State.ipcInit msgBuf bufAddr vm) [] := by
  refine ⟨⟨nodup_nil, not_mem_nil, ?_⟩, ?_, fun _ => rfl, ?_, fun p hp => absurd rfl hp, ?_, fun p _ => .start, ?_, ?_⟩
  · rw [nil_append, isChain_pair]
    exact ⟨succ_nil _, pred_nil _⟩
  · intro p hp
    cases hp
  · intro p hp
    cases hp
  · intro p c hp
    cases hp
  · intro p hp
    cases hp
  · intro p _ hp
    cases hp

theorem Inv.reach (h : Inv s l) (hr : ReflTransGen Step s t) : ∃ l, Inv t l := by
  induction hr with
  | refl => exact ⟨l, h⟩
  | tail _ hstep ih =>
    obtain ⟨l, hl⟩ := ih
    obtain ⟨a, ha, ht⟩ := hstep
    exact hl.act ha ht

/-- Along every run of sends and receives the queue is a doubly linked list without repetitions, whose search ends; the
events about each sender are rounds of a send, one receive of it and the return, where the receive is made by the
process that the send names, names the sender and reads what was sent; the senders in the middle of a round before the
receive are those in the queue; and a sender that is asleep is in the queue. -/
theorem sync_rendezvous (msgBuf : List UInt8) (bufAddr : { a : UInt32 // a.toNat + MSG_BUF_SIZE ≤ VM_USERLO }) (vm : Vm)
    {s : State} (h : ReflTransGen Step (State.ipcInit msgBuf bufAddr vm) s) :
    ∃ l, s.links.Rep NUM_IDS l ∧ (∀ p, ∃ b, s.msgGetBlockBySendID p = some b) ∧
      (∀ p, ∃ ph, Rounds p ph (about p s.log) ∧ ((∃ m, ph = .waiting m) ↔ p ∈ l) ∧ (ph = .outside ↔ s.call p ≠ .send)) ∧
      ∀ p, s.chan p = some (.recvCv p) → p ∈ l := by
  obtain ⟨l, hl⟩ := (inv_ipcInit msgBuf bufAddr vm).reach h
  refine ⟨l, hl.rep, fun p => ⟨_, hl.msgGetBlockBySendID p⟩, fun p => ?_, fun p hp => (hl.asleep p p hp).2⟩
  by_cases hm : p ∈ l
  · exact ⟨_, hl.waiting p hm, by simp [hm], by simp [hl.sending p hm]⟩
  · by_cases hc : s.call p = .send
    · exact ⟨_, hl.taken p hm hc, by simp [hm], by simp [hc]⟩
    · exact ⟨_, hl.outside p hc, by simp [hm], by simp [hc]⟩

/-- Process `2` sleeps in a receive from process `1`, which sends twice; the second message is for process `3` and stays
in the queue. -/
def twoSends : List Act :=
  [.recv 2 1 0x40001000 8, .send 1 ⟨2, 0x40000000, 4⟩, .resume 2, .resume 1, .send 1 ⟨3, 0x40000000, 8⟩]

theorem sync_rendezvous_twoSends :
    ∃ s, (State.ipcInit [] ⟨0x100000, by decide⟩ Vm.start2G).acts twoSends = some s ∧
      s.log = [.sent 1 ⟨2, 0x40000000, 4⟩, .received 2 1 ⟨2, 0x40000000, 4⟩ 4, .returned 1, .sent 1 ⟨3, 0x40000000, 8⟩] ∧
      s.links.head = 1 ∧ s.chan 1 = some (.recvCv 1) ∧
      ∃ l, s.links.Rep NUM_IDS l ∧ (∀ p, ∃ b, s.msgGetBlockBySendID p = some b) ∧
        (∀ p, ∃ ph, Rounds p ph (about p s.log) ∧ ((∃ m, ph = .waiting m) ↔ p ∈ l) ∧ (ph = .outside ↔ s.call p ≠ .send)) ∧
        ∀ p, s.chan p = some (.recvCv p) → p ∈ l := by
  have hsome : ((State.ipcInit [] ⟨0x100000, by decide⟩ Vm.start2G).acts twoSends).isSome = true := by decide
  obtain ⟨s, hs⟩ := Option.isSome_iff_exists.mp hsome
  have hlook : ((State.ipcInit [] ⟨0x100000, by decide⟩ Vm.start2G).acts twoSends).map
      (fun s => (s.log, s.links.head, s.chan 1)) =
      some ([.sent 1 ⟨2, 0x40000000, 4⟩, .received 2 1 ⟨2, 0x40000000, 4⟩ 4, .returned 1, .sent 1 ⟨3, 0x40000000, 8⟩], 1,
        some (.recvCv 1)) := by decide
  rw [hs, Option.map_some, Option.some.injEq, Prod.mk.injEq, Prod.mk.injEq] at hlook
  exact ⟨s, hs, hlook.1, hlook.2.1, hlook.2.2,
    sync_rendezvous [] ⟨0x100000, by decide⟩ Vm.start2G (State.reach_acts (by decide) hs)⟩

end MCertiKOS.Ipc
