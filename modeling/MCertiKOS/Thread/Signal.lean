import MCertiKOS.Memory.UserBytes
import MCertiKOS.Thread.Scheduler

/-!
# Signal handlers

`deliver_signal` and `handle_pending_signals` of `kern/trap/TTrapHandler/TTrapHandler.c` and `sys_sigreturn` of
`kern/trap/TSyscall/TSyscall.c`, for one process. At the end of a trap at most one pending signal is delivered: the
address where the process was and its stack pointer are pushed on the user stack, with a trampoline below them that
calls `sys_sigreturn`, and the process goes on in the handler. The thread control block holds the addresses of the
two words. What else the process and its traps do is arbitrary. Segment registers, flags and `oesp` are left out.

One field is not in the source: `stack` holds the contexts of the signals whose handlers have not called
`sys_sigreturn` yet, the last one first.

The control block has room for one pair of addresses, so a signal delivered in a handler makes the process forget
where that handler was to return to; and `sys_sigreturn` restores no register but sets `eax` (`nested_signal_lost`).
When signals arrive only outside of handlers, with `0` in `eax`, and handlers keep the other registers, the context
is restored (`sigreturn_restores`).
-/

namespace MCertiKOS.Thread

open Library Memory Paging Relation Vm List

/-- The general-purpose registers. -/
structure Regs where
  edi : UInt32
  esi : UInt32
  ebp : UInt32
  ebx : UInt32
  edx : UInt32
  ecx : UInt32
  eax : UInt32
  deriving DecidableEq

/-- The context of a process: what `trap_return` loads from the trap frame. -/
structure Ctx where
  eip : UInt32
  esp : UInt32
  regs : Regs
  deriving DecidableEq

/-- `struct sig_state`. Of an action only `sa_handler` is used. -/
structure SigState where
  /-- `sigactions[signum].sa_handler`. -/
  handler : ℕ → UInt32
  /-- `pending_signals`. -/
  pending : BitVec NSIG
  savedEspAddr : UInt32
  savedEipAddr : UInt32
  /-- `in_signal_handler`, which nothing reads. -/
  inSignalHandler : Bool

/-- The process that has trapped. -/
structure Proc where
  /-- `get_curid()`. -/
  pid : ℕ
  /-- `tf`. -/
  ctx : Ctx
  vm : Vm
  /-- `TCBPool[pid].sigstate`. -/
  sig : SigState
  dead : Bool
  /-- Where the kernel keeps the words that it copies: on its own stack, below user memory. -/
  kva : { a : UInt32 // a.toNat + 12 ≤ VM_USERLO }
  stack : List Ctx

/-! ### Words -/

def wordBytes (w : UInt32) : List UInt8 := (List.range 4).map fun i => UInt8.ofNat (w.toNat / 256 ^ i)

def wordOf (bytes : List UInt8) : UInt32 := UInt32.ofNat (bytes.foldr (fun b n => b.toNat + 256 * n) 0)

theorem wordOf_wordBytes (w : UInt32) : wordOf (wordBytes w) = w := by
  have h := w.toNat_lt
  have hn : (wordBytes w).foldr (fun b n => b.toNat + 256 * n) 0 = w.toNat := by
    simp [wordBytes, range_succ, UInt8.toNat_ofNat']
    omega
  rw [wordOf, hn]
  exact UInt32.ofNat_toNat

theorem length_wordBytes (w : UInt32) : (wordBytes w).length = 4 := by simp [wordBytes]

/-! ### Delivery -/

abbrev SYS_sigreturn : UInt8 := 29

abbrev E_INVAL_ADDR : UInt32 := 4

abbrev E_MEM : UInt32 := 1

/-- The code that a handler returns to: `mov eax, SYS_sigreturn`, `int 0x30`, `jmp $`. -/
def trampoline : List UInt8 := [0xB8, SYS_sigreturn, 0, 0, 0, 0xCD, 0x30, 0xEB, 0xFE, 0x90, 0x90, 0x90]

namespace Proc

/-- `pt_copyout` to the stack. The results are not looked at. -/
def push (s : Proc) (v : Vm) (addr : UInt32) (bytes : List UInt8) : Vm := (v.ptCopyout s.pid s.kva addr bytes).vm

/-- Where `deliver_signal` puts the trampoline. -/
def trampolineAddr (s : Proc) : UInt32 := s.ctx.esp - 20

/-- `new_esp & ~3`. -/
def aligned (s : Proc) : UInt32 := s.trampolineAddr / 4 * 4

/-- The memory after the words, the trampoline and the arguments of the handler have been pushed. -/
def pushFrame (s : Proc) (signum : ℕ) : Vm :=
  let v₁ := s.push s.vm (s.ctx.esp - 4) (wordBytes s.ctx.eip)
  let v₂ := s.push v₁ (s.ctx.esp - 8) (wordBytes s.ctx.esp)
  let v₃ := s.push v₂ s.trampolineAddr trampoline
  let v₄ := s.push v₃ (s.aligned - 4) (wordBytes (UInt32.ofNat signum))
  s.push v₄ (s.aligned - 8) (wordBytes s.trampolineAddr)

/-- What `deliver_signal` pushes, in this order: the saved `eip` and `esp`, the trampoline, the argument of the handler and
the address it returns to. -/
def frame (s : Proc) (signum : ℕ) : List (UInt32 × List UInt8) :=
  [(s.ctx.esp - 4, wordBytes s.ctx.eip), (s.ctx.esp - 8, wordBytes s.ctx.esp), (s.trampolineAddr, trampoline),
    (s.aligned - 4, wordBytes (UInt32.ofNat signum)), (s.aligned - 8, wordBytes s.trampolineAddr)]

def pushes (s : Proc) (v : Vm) (l : List (UInt32 × List UInt8)) : Vm := l.foldl (fun v x => s.push v x.1 x.2) v

theorem pushFrame_eq (s : Proc) (signum : ℕ) : s.pushFrame signum = s.pushes s.vm (s.frame signum) := rfl

def deliverSignal (s : Proc) (signum : ℕ) : Proc :=
  if s.sig.handler signum ≠ 0 then
    { s with
      vm := s.pushFrame signum
      ctx := { s.ctx with esp := s.aligned - 8, eip := s.sig.handler signum }
      sig := { s.sig with savedEspAddr := s.ctx.esp - 8, savedEipAddr := s.ctx.esp - 4, inSignalHandler := true }
      stack := s.ctx :: s.stack }
  else s

/-- The signal that the loop of `handle_pending_signals` stops at. -/
def nextSignal (s : Proc) : Option ℕ := (List.range' 1 (NSIG - 1)).find? fun i => s.sig.pending.getLsbD i

/-- `tcb_clear_pending_signal`. -/
def clearPending (s : Proc) (signum : ℕ) : Proc :=
  { s with sig := { s.sig with pending := s.sig.pending &&& ~~~ BitVec.twoPow NSIG signum } }

def handlePendingSignals (s : Proc) : Proc :=
  match s.nextSignal with
  | none => s
  | some signum =>
    let t := s.clearPending signum
    -- `terminate_process`
    if signum = SIGKILL then { t with dead := true, sig := { t.sig with pending := 0 } }
    else t.deliverSignal signum

/-- `syscall_set_errno`. -/
def setErrno (s : Proc) (e : UInt32) : Proc := { s with ctx := { s.ctx with regs := { s.ctx.regs with eax := e } } }

/-- `sys_sigreturn`. The handler that calls it is over. -/
def sysSigreturn (s : Proc) : Proc :=
  let s₀ := { s with stack := s.stack.tail }
  if s.sig.savedEspAddr = 0 ∨ s.sig.savedEipAddr = 0 then s₀.setErrno E_INVAL_ADDR
  else
    let r := s.vm.ptCopyin s.pid s.sig.savedEspAddr s.kva 4
    if r.copied ≠ 4 then { s₀ with vm := r.vm }.setErrno E_MEM
    else
      let r' := r.vm.ptCopyin s.pid s.sig.savedEipAddr s.kva 4
      if r'.copied ≠ 4 then { s₀ with vm := r'.vm }.setErrno E_MEM
      else
        { s₀ with
          vm := r'.vm
          sig := { s.sig with savedEspAddr := 0, savedEipAddr := 0, inSignalHandler := false }
          ctx := { s.ctx with esp := wordOf r.bytes, eip := wordOf r'.bytes } }.setErrno 0

end Proc

/-! ### Steps -/

/-- What happens to the process. -/
inductive SigAct where
  /-- It runs, and so do others. -/
  | user (c : Ctx) (v : Vm)
  /-- A signal is sent to it by `sys_kill`. -/
  | post (signum : ℕ)
  /-- It traps: the context, the memory and its handlers after the trap has been handled. -/
  | trap (c : Ctx) (v : Vm) (handler : ℕ → UInt32)
  /-- It calls `sys_sigreturn`. -/
  | sigreturn

namespace Proc

/-- The state when the trap has been handled, before the pending signals are. -/
def handled (s : Proc) : SigAct → Option Proc
  | .trap c v handler => some { s with ctx := c, vm := v, sig := { s.sig with handler := handler } }
  | .sigreturn => some s.sysSigreturn
  | _ => none

def act (s : Proc) : SigAct → Proc
  | .user c v => { s with ctx := c, vm := v }
  | .post signum => { s with sig := { s.sig with pending := s.sig.pending ||| BitVec.twoPow NSIG signum } }
  | .trap c v handler => { s with ctx := c, vm := v, sig := { s.sig with handler := handler } }.handlePendingSignals
  | .sigreturn => s.sysSigreturn.handlePendingSignals

def acts (s : Proc) (l : List SigAct) : Proc := l.foldl act s

/-- The two saved words, eight bytes from `saved_esp_addr` on, are as they were, in pages that are mapped. -/
def KeepsSaved (s : Proc) (v : Vm) : Prop :=
  ∀ j < 8, v.Present s.pid ((s.sig.savedEspAddr.toNat + j) / PAGESIZE) ∧
    v.userByte s.pid (s.sig.savedEspAddr.toNat + j) = s.vm.userByte s.pid (s.sig.savedEspAddr.toNat + j)

end Proc

/-- User code does not overwrite the saved words, directly or through a system call, and processes stay isolated. -/
def SigAct.Leaves (s : Proc) : SigAct → Prop
  | .user _ v => Isolated v ∧ (s.stack ≠ [] → s.KeepsSaved v)
  | .trap _ v _ => Isolated v ∧ (s.stack ≠ [] → s.KeepsSaved v)
  | .post signum => signum ≠ SIGKILL
  | .sigreturn => True

def StackFits (v : Vm) (pid : ℕ) (esp : ℕ) : Prop :=
  VM_USERLO + 32 ≤ esp ∧ esp ≤ VM_USERHI ∧ Room v.pmm pid (2 * v.missingIn pid (pagesOf (esp - 32) 32))

/-- The condition on the state at the end of a trap: a signal that is delivered finds no handler running, room on the
stack and `0` in `eax`. -/
def Proc.DeliveryFits (s : Proc) : Prop :=
  ∀ signum, s.nextSignal = some signum → signum ≠ SIGKILL → s.sig.handler signum ≠ 0 →
    s.stack = [] ∧ StackFits s.vm s.pid s.ctx.esp.toNat ∧ s.ctx.regs.eax = 0

/-- The registers other than `eax` are the same. -/
def Regs.SameButEax (r r' : Regs) : Prop := { r with eax := 0 } = { r' with eax := 0 }

/-- The condition on a step. At `sys_sigreturn`, the handler has kept the registers other than `eax`. -/
def SigAct.Fits (s : Proc) (a : SigAct) : Prop :=
  (∀ t, s.handled a = some t → t.DeliveryFits) ∧
    match a with
    | .sigreturn => ∀ c ∈ s.stack.head?, s.ctx.regs.SameButEax c.regs
    | _ => True

def SigStep (s t : Proc) : Prop := ∃ a : SigAct, a.Leaves s ∧ a.Fits s ∧ t = s.act a

/-! ### The frame on the stack -/

/-- What is pushed is there, and what is beside it stays. -/
structure Pushed (v t : Vm) (p base addr : ℕ) (bytes : List UInt8) : Prop where
  inv : Isolated t
  room : Room t.pmm p (2 * t.missingIn p (pagesOf base 32))
  stored : ∀ j < bytes.length, t.Present p ((addr + j) / PAGESIZE) ∧ t.userByte p (addr + j) = bytes.getD j 0
  keep : ∀ a, UserPage (a / PAGESIZE) → v.Present p (a / PAGESIZE) → ¬ (addr ≤ a ∧ a < addr + bytes.length) →
    t.Present p (a / PAGESIZE) ∧ t.userByte p a = v.userByte p a

variable {s t : Proc} {v : Vm} {base p : ℕ} {w : UInt32} {l : List (UInt32 × List UInt8)} {c : Ctx}

theorem pushed_push (h : Isolated v) (hp : 1 ≤ s.pid) (hlo : VM_USERLO ≤ base)
    (hhi : base + 32 ≤ VM_USERHI) (hroom : Room v.pmm s.pid (2 * v.missingIn s.pid (pagesOf base 32))) (addr : UInt32)
    (bytes : List UInt8) (hlen : bytes.length ≤ 12) (h1 : base ≤ addr.toNat) (h2 : addr.toNat + bytes.length ≤ base + 32) :
    Pushed v (s.push v addr bytes) s.pid base addr.toNat bytes := by
  have hkva := s.kva.2
  have hn : (UInt32.ofNat bytes.length).toNat = bytes.length :=
    UInt32.toNat_ofNat_of_lt' (by unfold UInt32.size; omega)
  have hok : Vm.rangeOk addr s.kva (UInt32.ofNat bytes.length) = true := by
    refine rangeOk_of_user (hlo.trans h1) (by rw [hn]; exact h2.trans hhi) ?_
    rw [hn]
    unfold VM_USERLO at hkva
    unfold VM_USERHI
    omega
  have hsub : pagesOf addr.toNat bytes.length ⊆ pagesOf base 32 := pagesOf_subset h1 h2
  have hmono := v.missingIn_mono s.pid hsub
  have hroom' : Room v.pmm s.pid (2 * v.missingIn s.pid (pagesOf addr.toNat bytes.length)) := hroom.mono (by omega)
  have hpages : ∀ q ∈ pagesOf base 32, UserPage q := fun q hq => userPage_of_mem_pagesOf hlo hhi hq
  have hpush : s.push v addr bytes = (copyLoop s.pid (memcpyOut bytes) bytes.length v addr 0 bytes.length).vm := by
    rw [Proc.push, Vm.ptCopyout, if_pos hok]
  obtain ⟨hst, hpass⟩ := copyout_spec bytes h hp le_rfl (hlo.trans h1) (h2.trans hhi) hroom' 0
    (by omega)
  have hdone := (copyLoop_spec (harmless_memcpyOut bytes) hp le_rfl h (hlo.trans h1) (h2.trans hhi) (k := 0) hroom' 0).1
  rw [hpush]
  refine ⟨hpass.inv, hroom.spend (hpass.spends _ hpages hsub), fun j hj => ⟨hdone.present _ (by omega) (by omega), ?_⟩,
    fun a hq hpr hn => ⟨hpass.untouched.present hp hq hpr, hpass.untouched.byte s.pid a hp hq hpr fun hw => hn hw.2⟩⟩
  rw [hst j hj, Nat.zero_add]

def HasWord (v : Vm) (p addr : ℕ) (w : UInt32) : Prop :=
  ∀ j < 4, v.Present p ((addr + j) / PAGESIZE) ∧ v.userByte p (addr + j) = (wordBytes w).getD j 0

theorem HasWord.kept {t : Vm} {a b : ℕ} (h : HasWord v p (a + b) w) (hb : b + 4 ≤ 8)
    (hk : ∀ j < 8, t.Present p ((a + j) / PAGESIZE) ∧ t.userByte p (a + j) = v.userByte p (a + j)) : HasWord t p (a + b) w := by
  intro j hj
  obtain ⟨h1, h2⟩ := hk (b + j) (by omega)
  rw [← Nat.add_assoc] at h1 h2
  exact ⟨h1, h2.trans (h j hj).2⟩

def HasBytes (v : Vm) (p addr : ℕ) (bytes : List UInt8) : Prop :=
  ∀ j < bytes.length, v.Present p ((addr + j) / PAGESIZE) ∧ v.userByte p (addr + j) = bytes.getD j 0

theorem HasBytes.word {addr : ℕ} (h : HasBytes v p addr (wordBytes w)) : HasWord v p addr w :=
  fun j hj => h j (by rwa [length_wordBytes])

/-- The pages that the pushes touch are mapped, or can be allocated. -/
def Proc.Backs (s : Proc) : Vm → List (UInt32 × List UInt8) → Prop
  | _, [] => True
  | v, x :: l => Backed s.pid (memcpyOut x.2) x.2.length v x.1 0 x.2.length ∧ s.Backs (s.push v x.1 x.2) l

/-- The pushes are in user memory, one below the other. -/
structure Downward (l : List (UInt32 × List UInt8)) : Prop where
  user : ∀ x ∈ l, VM_USERLO ≤ x.1.toNat ∧ x.1.toNat + x.2.length ≤ VM_USERHI ∧ x.2.length ≤ 12
  below : l.Pairwise fun x y => y.1.toNat + y.2.length ≤ x.1.toNat

theorem placed_pushes (hp : 1 ≤ s.pid) (h : Isolated v) (hl : Downward l)
    (hb : s.Backs v l) :
    Isolated (s.pushes v l) ∧ (∀ x ∈ l, HasBytes (s.pushes v l) s.pid x.1.toNat x.2) ∧
      ∀ a, UserPage (a / PAGESIZE) → v.Present s.pid (a / PAGESIZE) →
        (∀ x ∈ l, ¬ (x.1.toNat ≤ a ∧ a < x.1.toNat + x.2.length)) →
        (s.pushes v l).Present s.pid (a / PAGESIZE) ∧ (s.pushes v l).userByte s.pid a = v.userByte s.pid a := by
  induction l generalizing v with
  | nil => exact ⟨h, nofun, fun a _ hpr _ => ⟨hpr, rfl⟩⟩
  | cons x l ih =>
    obtain ⟨hlo, hhi, hlen⟩ := hl.user x (by simp)
    obtain ⟨hbelow, hrest⟩ := pairwise_cons.mp hl.below
    have hkva := s.kva.2
    have hst := stored_ptCopyout h hp x.2 s.kva hlo hhi (by unfold VM_USERLO at hkva; unfold VM_USERHI; omega) hb.1
    have hun := hst.passes.untouched
    obtain ⟨hi, hthere, hkeep⟩ := ih hst.passes.inv ⟨fun y hy => hl.user y (by simp [hy]), hrest⟩ hb.2
    refine ⟨hi, fun y hy j hj => ?_, fun a hq hpr hn => ?_⟩
    · rcases mem_cons.mp hy with rfl | hy
      · -- the later pushes are below this one
        have hq : UserPage ((y.1.toNat + j) / PAGESIZE) := by
          unfold UserPage PAGESIZE
          unfold VM_USERLO at hlo
          unfold VM_USERHI at hhi
          omega
        obtain ⟨h1, h2⟩ := hkeep (y.1.toNat + j) hq (hst.present j hj) fun z hz => by
          have := hbelow z hz
          omega
        refine ⟨h1, h2.trans ?_⟩
        have hb := hst.stored j hj
        rwa [Nat.zero_add] at hb
      · exact hthere y hy j hj
    · obtain ⟨h1, h2⟩ := hkeep a hq (hun.present hp hq hpr) fun z hz => hn z (by simp [hz])
      exact ⟨h1, h2.trans (hun.byte s.pid a hp hq hpr fun hw => hn x (by simp) hw.2)⟩

theorem backs_of_room (hp : 1 ≤ s.pid) (hlo : VM_USERLO ≤ base) (hhi : base + 32 ≤ VM_USERHI)
    (h : Isolated v) (hroom : Room v.pmm s.pid (2 * v.missingIn s.pid (pagesOf base 32)))
    (hl : ∀ x ∈ l, base ≤ x.1.toNat ∧ x.1.toNat + x.2.length ≤ base + 32 ∧ x.2.length ≤ 12) : s.Backs v l := by
  induction l generalizing v with
  | nil => trivial
  | cons x l ih =>
    obtain ⟨h1, h2, h3⟩ := hl x (by simp)
    have hpush := pushed_push h hp hlo hhi hroom x.1 x.2 h3 h1 h2
    have hmono := v.missingIn_mono s.pid (pagesOf_subset h1 h2)
    refine ⟨?_, ih hpush.inv hpush.room fun y hy => hl y (by simp [hy])⟩
    have hroom' : Room v.pmm s.pid (2 * v.missingIn s.pid (pagesOf x.1.toNat x.2.length) + 0) := hroom.mono (by omega)
    exact hroom'.backed (harmless_memcpyOut _) hp h (hlo.trans h1) (h2.trans hhi) _ 0

theorem toNat_sub_of_user {a : UInt32} (h : VM_USERLO + 32 ≤ a.toNat) {k : UInt32} (hk : k.toNat ≤ 32) :
    (a - k).toNat = a.toNat - k.toNat := by
  unfold VM_USERLO at h
  exact UInt32.toNat_sub_of_le _ _ (UInt32.le_iff_toNat_le.mpr (by omega))

/-- Where the parts of the frame are. -/
structure FrameAt (s : Proc) : Prop where
  eip : (s.ctx.esp - 4).toNat = s.ctx.esp.toNat - 4
  esp : (s.ctx.esp - 8).toNat = s.ctx.esp.toNat - 8
  trampoline : s.trampolineAddr.toNat = s.ctx.esp.toNat - 20
  arg : (s.aligned - 4).toNat = (s.ctx.esp.toNat - 20) / 4 * 4 - 4
  ret : (s.aligned - 8).toNat = (s.ctx.esp.toNat - 20) / 4 * 4 - 8

theorem frameAt (hlo : VM_USERLO + 32 ≤ s.ctx.esp.toNat) : FrameAt s := by
  have htr : s.trampolineAddr.toNat = s.ctx.esp.toNat - 20 := toNat_sub_of_user hlo (by decide)
  have hal : s.aligned.toNat = (s.ctx.esp.toNat - 20) / 4 * 4 := by
    have hlt := s.ctx.esp.toNat_lt
    rw [Proc.aligned, UInt32.toNat_mul, UInt32.toNat_div, htr, show (4 : UInt32).toNat = 4 from rfl, Nat.mod_eq_of_lt (by omega)]
  have hsub : ∀ k : UInt32, k.toNat ≤ 8 → (s.aligned - k).toNat = s.aligned.toNat - k.toNat := by
    intro k hk
    unfold VM_USERLO at hlo
    exact UInt32.toNat_sub_of_le _ _ (UInt32.le_iff_toNat_le.mpr (by omega))
  exact ⟨toNat_sub_of_user hlo (by decide), toNat_sub_of_user hlo (by decide), htr, (hsub 4 (by decide)).trans (by rw [hal]; rfl),
    (hsub 8 (by decide)).trans (by rw [hal]; rfl)⟩

theorem frame_layout (hlo : VM_USERLO + 32 ≤ s.ctx.esp.toNat) (hhi : s.ctx.esp.toNat ≤ VM_USERHI) (signum : ℕ) :
    Downward (s.frame signum) ∧ ∀ x ∈ s.frame signum,
      s.ctx.esp.toNat - 32 ≤ x.1.toNat ∧ x.1.toNat + x.2.length ≤ s.ctx.esp.toNat - 32 + 32 ∧ x.2.length ≤ 12 := by
  obtain ⟨h1, h2, h3, h4, h5⟩ := frameAt hlo
  have hw := length_wordBytes
  have ht : trampoline.length = 12 := rfl
  have hin : ∀ x ∈ s.frame signum, s.ctx.esp.toNat - 32 ≤ x.1.toNat ∧
      x.1.toNat + x.2.length ≤ s.ctx.esp.toNat - 32 + 32 ∧ x.2.length ≤ 12 := by
    unfold VM_USERLO at hlo
    simp only [Proc.frame, forall_mem_cons, h1, h2, h3, h4, h5, hw, ht, not_mem_nil, false_imp_iff, implies_true,
      and_true]
    omega
  refine ⟨⟨fun x hx => ?_, ?_⟩, hin⟩
  · have := hin x hx
    omega
  · unfold VM_USERLO at hlo
    simp only [Proc.frame, pairwise_cons, forall_mem_cons, h1, h2, h3, h4, h5, hw, ht, not_mem_nil, false_imp_iff,
      implies_true, and_true, List.Pairwise.nil]
    omega

theorem hasWord_pushFrame (h : Isolated s.vm) (hp : 1 ≤ s.pid) (hfit : StackFits s.vm s.pid s.ctx.esp.toNat)
    (signum : ℕ) :
    Isolated (s.pushFrame signum) ∧ HasWord (s.pushFrame signum) s.pid (s.ctx.esp.toNat - 8) s.ctx.esp ∧
      HasWord (s.pushFrame signum) s.pid (s.ctx.esp.toNat - 4) s.ctx.eip := by
  obtain ⟨hlo, hhi, hroom⟩ := hfit
  obtain ⟨hdown, hin⟩ := frame_layout hlo hhi signum
  have hat := frameAt hlo
  have hb : s.Backs s.vm (s.frame signum) := backs_of_room hp (by omega) (by omega) h hroom hin
  obtain ⟨hi, hthere, -⟩ := placed_pushes hp h hdown hb
  rw [Proc.pushFrame_eq, ← hat.esp, ← hat.eip]
  exact ⟨hi, (hthere (s.ctx.esp - 8, wordBytes s.ctx.esp) (by simp [Proc.frame])).word,
    (hthere (s.ctx.esp - 4, wordBytes s.ctx.eip) (by simp [Proc.frame])).word⟩

/-! ### The invariant -/

/-- The invariant: no handler runs and no address is saved, or one runs and the words of its context are on the stack. -/
structure SigInv (s : Proc) : Prop where
  pid : 1 ≤ s.pid
  inv : Isolated s.vm
  outside : s.stack = [] → s.sig.savedEspAddr = 0 ∧ s.sig.savedEipAddr = 0
  inside : ∀ c ∈ s.stack, s.stack = [c] ∧ VM_USERLO + 32 ≤ c.esp.toNat ∧ c.esp.toNat ≤ VM_USERHI ∧
    s.sig.savedEspAddr = c.esp - 8 ∧ s.sig.savedEipAddr = c.esp - 4 ∧
    HasWord s.vm s.pid (c.esp.toNat - 8) c.esp ∧ HasWord s.vm s.pid (c.esp.toNat - 4) c.eip ∧ c.regs.eax = 0

namespace SigInv

variable {s t : Proc}

theorem change (h : SigInv s) {v : Vm} (hv : Isolated v) (hk : s.stack ≠ [] → s.KeepsSaved v) (c : Ctx)
    (handler : ℕ → UInt32) (pending : BitVec NSIG) :
    SigInv { s with ctx := c, vm := v, sig := { s.sig with handler := handler, pending := pending } } := by
  refine ⟨h.pid, hv, h.outside, fun c' hc' => ?_⟩
  obtain ⟨h1, h2, h3, h4, h5, h6, h7, h8⟩ := h.inside c' hc'
  have hkeep := hk (ne_nil_of_mem hc')
  have e8 : (c'.esp - 8).toNat = c'.esp.toNat - 8 := toNat_sub_of_user h2 (by decide)
  have hbyte : ∀ j < 8, v.Present s.pid ((c'.esp.toNat - 8 + j) / PAGESIZE) ∧
      v.userByte s.pid (c'.esp.toNat - 8 + j) = s.vm.userByte s.pid (c'.esp.toNat - 8 + j) := by
    intro j hj
    have := hkeep j hj
    rwa [h4, e8] at this
  have hle : 8 ≤ c'.esp.toNat := by
    unfold VM_USERLO at h2
    omega
  rw [show c'.esp.toNat - 4 = c'.esp.toNat - 8 + 4 by omega] at h7 ⊢
  exact ⟨h1, h2, h3, h4, h5, h6.kept (b := 0) (by omega) hbyte, h7.kept (by omega) hbyte, h8⟩

theorem keepsSaved (h : SigInv s) (hst : s.stack ≠ []) : s.KeepsSaved s.vm := by
  obtain ⟨c, hc⟩ := exists_mem_of_ne_nil _ hst
  obtain ⟨-, h2, -, h4, -, h6, h7, -⟩ := h.inside c hc
  have e8 : (c.esp - 8).toNat = c.esp.toNat - 8 := toNat_sub_of_user h2 (by decide)
  unfold VM_USERLO at h2
  intro j hj
  refine ⟨?_, rfl⟩
  rw [h4, e8]
  by_cases hj4 : j < 4
  · exact (h6 j hj4).1
  · have := (h7 (j - 4) (by omega)).1
    rwa [show c.esp.toNat - 4 + (j - 4) = c.esp.toNat - 8 + j by omega] at this

theorem deliverSignal (h : SigInv s) {signum : ℕ} (hf : s.sig.handler signum ≠ 0 →
    s.stack = [] ∧ StackFits s.vm s.pid s.ctx.esp.toNat ∧ s.ctx.regs.eax = 0) : SigInv (s.deliverSignal signum) := by
  unfold Proc.deliverSignal
  split_ifs with hh
  · obtain ⟨hst, hfit, heax⟩ := hf hh
    obtain ⟨hi, h1, h2⟩ := hasWord_pushFrame h.inv h.pid hfit signum
    refine ⟨h.pid, hi, fun e => ?_, fun c hc => ?_⟩
    · cases e
    · have hc : c = s.ctx := by
        have : c ∈ s.ctx :: s.stack := hc
        rw [hst] at this
        simpa using this
      subst hc
      refine ⟨?_, hfit.1, hfit.2.1, rfl, rfl, h1, h2, heax⟩
      show s.ctx :: s.stack = [s.ctx]
      rw [hst]
  · exact h

theorem handlePendingSignals (h : SigInv s) (hf : s.DeliveryFits) : SigInv s.handlePendingSignals := by
  unfold Proc.handlePendingSignals
  split
  · exact h
  · rename_i signum hnext
    have ht : SigInv (s.clearPending signum) := ⟨h.pid, h.inv, h.outside, h.inside⟩
    dsimp only
    split_ifs with hk
    · exact ⟨h.pid, h.inv, h.outside, h.inside⟩
    · exact ht.deliverSignal (hf signum hnext hk)

end SigInv

theorem HasWord.copyin {addr kva : UInt32} (h : HasWord v p addr.toNat w) (hlo : VM_USERLO ≤ addr.toNat)
    (hhi : addr.toNat + 4 ≤ VM_USERHI) (hk : kva.toNat + 12 ≤ VM_USERLO) :
    (v.ptCopyin p addr kva 4).copied = 4 ∧ (v.ptCopyin p addr kva 4).vm = v ∧ wordOf (v.ptCopyin p addr kva 4).bytes = w := by
  have hn : (4 : UInt32).toNat = 4 := rfl
  have hok : Vm.rangeOk addr kva 4 = true := by
    refine rangeOk_of_user hlo hhi ?_
    rw [hn]
    unfold VM_USERLO at hk
    unfold VM_USERHI
    omega
  have hpres : ∀ a, addr.toNat ≤ a → a < addr.toNat + 4 → v.Present p (a / PAGESIZE) := by
    intro a h1 h2
    have := (h (a - addr.toNat) (by omega)).1
    rwa [show addr.toNat + (a - addr.toNat) = a by omega] at this
  have hcopy : v.ptCopyin p addr kva 4 = ⟨4, (List.range' addr.toNat 4).map (v.physOf p),
      (List.range' addr.toNat 4).map (v.userByte p), v⟩ := by
    rw [Vm.ptCopyin, if_pos hok, hn]
    exact copyin_present le_rfl hhi hpres 0
  rw [hcopy]
  refine ⟨rfl, rfl, ?_⟩
  have hb : (List.range' addr.toNat 4).map (v.userByte p) = wordBytes w := by
    refine ext_getElem (by simp [length_wordBytes]) fun j h1 h2 => ?_
    have hj : j < 4 := by simpa using h1
    rw [getElem_map, getElem_range', Nat.one_mul, (h j hj).2, getD_eq_getElem]
  show wordOf ((List.range' addr.toNat 4).map (v.userByte p)) = w
  rw [hb, wordOf_wordBytes]

theorem sysSigreturn_eq (hlo : VM_USERLO + 32 ≤ c.esp.toNat) (hhi : c.esp.toNat ≤ VM_USERHI)
    (hesp : s.sig.savedEspAddr = c.esp - 8) (heip : s.sig.savedEipAddr = c.esp - 4)
    (wesp : HasWord s.vm s.pid (c.esp.toNat - 8) c.esp) (weip : HasWord s.vm s.pid (c.esp.toNat - 4) c.eip) :
    s.sysSigreturn = { s with
      stack := s.stack.tail
      sig := { s.sig with savedEspAddr := 0, savedEipAddr := 0, inSignalHandler := false }
      ctx := ⟨c.eip, c.esp, { s.ctx.regs with eax := 0 }⟩ } := by
  have e8 : (c.esp - 8).toNat = c.esp.toNat - 8 := toNat_sub_of_user hlo (by decide)
  have e4 : (c.esp - 4).toNat = c.esp.toNat - 4 := toNat_sub_of_user hlo (by decide)
  unfold VM_USERLO at hlo
  unfold VM_USERHI at hhi
  have hne : ¬ (s.sig.savedEspAddr = 0 ∨ s.sig.savedEipAddr = 0) := by
    rw [hesp, heip]
    rintro (e | e)
    · rw [e] at e8
      rw [UInt32.toNat_zero] at e8
      omega
    · rw [e] at e4
      rw [UInt32.toNat_zero] at e4
      omega
  rw [← e8, ← hesp] at wesp
  rw [← e4, ← heip] at weip
  obtain ⟨c1, v1, w1⟩ := wesp.copyin (by unfold VM_USERLO; rw [hesp]; omega) (by unfold VM_USERHI; rw [hesp]; omega) s.kva.2
  obtain ⟨c2, v2, w2⟩ := weip.copyin (by unfold VM_USERLO; rw [heip]; omega) (by unfold VM_USERHI; rw [heip]; omega) s.kva.2
  unfold Proc.sysSigreturn
  rw [if_neg hne]
  dsimp only
  rw [v1, if_neg (not_not.mpr c1), if_neg (not_not.mpr c2), v2, w1, w2]
  rfl

theorem SigInv.sysSigreturn (h : SigInv s) (hc : c ∈ s.stack) (hr : s.ctx.regs.SameButEax c.regs) :
    s.sysSigreturn.ctx = c ∧ s.sysSigreturn.stack = [] ∧ SigInv s.sysSigreturn := by
  obtain ⟨h1, h2, h3, h4, h5, h6, h7, h8⟩ := h.inside c hc
  have htail : s.stack.tail = [] := by rw [h1]; rfl
  rw [sysSigreturn_eq h2 h3 h4 h5 h6 h7]
  refine ⟨?_, htail, h.pid, h.inv, fun _ => ⟨rfl, rfl⟩, fun c' hc' => ?_⟩
  · have hregs : { s.ctx.regs with eax := 0 } = c.regs := hr.trans (by rw [← h8])
    show Ctx.mk c.eip c.esp { s.ctx.regs with eax := 0 } = c
    rw [hregs]
  · have : c' ∈ s.stack.tail := hc'
    rw [htail] at this
    cases this

theorem SigInv.sysSigreturn_outside (h : SigInv s) (hst : s.stack = []) : SigInv s.sysSigreturn := by
  obtain ⟨h1, h2⟩ := h.outside hst
  have hret : s.sysSigreturn = { s with stack := s.stack.tail }.setErrno E_INVAL_ADDR := by
    unfold Proc.sysSigreturn
    rw [if_pos (.inl h1)]
  have htail : s.stack.tail = [] := by rw [hst]; rfl
  rw [hret]
  refine ⟨h.pid, h.inv, fun _ => ⟨h1, h2⟩, fun c hc => ?_⟩
  have : c ∈ s.stack.tail := hc
  rw [htail] at this
  cases this

theorem SigInv.step (h : SigInv s) (hstep : SigStep s t) : SigInv t := by
  obtain ⟨a, hl, ⟨hf, hregs⟩, rfl⟩ := hstep
  cases a with
  | user c v => exact h.change hl.1 hl.2 c s.sig.handler s.sig.pending
  | post signum => exact ⟨h.pid, h.inv, h.outside, h.inside⟩
  | trap c v handler => exact (h.change hl.1 hl.2 c handler s.sig.pending).handlePendingSignals (hf _ rfl)
  | sigreturn =>
    refine SigInv.handlePendingSignals ?_ (hf _ rfl)
    cases hst : s.stack with
    | nil => exact h.sysSigreturn_outside hst
    | cons c l =>
      have hregs : ∀ c ∈ s.stack.head?, s.ctx.regs.SameButEax c.regs := hregs
      exact (h.sysSigreturn (by rw [hst]; simp) (hregs c (by rw [hst]; rfl))).2.2

theorem SigInv.reach (h : SigInv s) (hr : ReflTransGen SigStep s t) : SigInv t := by
  induction hr with
  | refl => exact h
  | tail _ hstep ih => exact ih.step hstep

/-- A process to which no signal was delivered yet. -/
structure Unsignalled (s : Proc) : Prop where
  pid : 1 ≤ s.pid
  inv : Isolated s.vm
  stack : s.stack = []
  saved : s.sig.savedEspAddr = 0 ∧ s.sig.savedEipAddr = 0

theorem Unsignalled.sigInv (h : Unsignalled s) : SigInv s := by
  refine ⟨h.pid, h.inv, fun _ => h.saved, fun c hc => ?_⟩
  rw [h.stack] at hc
  cases hc

/-- Along every run in which signals are delivered only outside of handlers, with room on the stack and `0` in `eax`, and
in which handlers keep the other registers and return through the trampoline, `sys_sigreturn` restores the context in
which the signal was delivered, and the program goes on there. -/
theorem sigreturn_restores {s₀ s : Proc} (h₀ : Unsignalled s₀) (h : ReflTransGen SigStep s₀ s)
    (hf : SigAct.sigreturn.Fits s) {c : Ctx} {st : List Ctx} (hst : s.stack = c :: st) :
    s.sysSigreturn.ctx = c ∧ s.sysSigreturn.stack = st := by
  have hi := h₀.sigInv.reach h
  have hc : c ∈ s.stack := by rw [hst]; simp
  have hregs : ∀ c ∈ s.stack.head?, s.ctx.regs.SameButEax c.regs := hf.2
  obtain ⟨h1, h2, -⟩ := hi.sysSigreturn hc (hregs c (by rw [hst]; rfl))
  have hone := (hi.inside c hc).1
  rw [hst] at hone
  obtain rfl : st = [] := by simpa using hone
  exact ⟨h1, h2⟩

/-! ### One delivery -/

/-- What a delivery does, and what `sys_sigreturn` makes of it. -/
structure Delivered (s t : Proc) (signum : ℕ) : Prop where
  /-- The saved `eip`, the saved `esp`, the trampoline, the signal number and the return address are stored in user memory
  below the old stack pointer. -/
  stored : ∀ x ∈ s.frame signum, VM_USERLO ≤ x.1.toNat ∧ x.1.toNat + x.2.length ≤ s.ctx.esp.toNat ∧
    HasBytes t.vm s.pid x.1.toNat x.2
  disjoint : (s.frame signum).Pairwise fun x y => y.1.toNat + y.2.length ≤ x.1.toNat
  handler : t.ctx.eip = s.sig.handler signum
  ret : HasWord t.vm s.pid t.ctx.esp.toNat s.trampolineAddr
  arg : HasWord t.vm s.pid (t.ctx.esp.toNat + 4) (UInt32.ofNat signum)
  /-- Once the handler is done, and has left the saved words alone, `sys_sigreturn` restores the context and clears what was
  saved. -/
  undone : ∀ u : Proc, u.pid = s.pid → u.sig.savedEspAddr = t.sig.savedEspAddr → u.sig.savedEipAddr = t.sig.savedEipAddr →
    t.KeepsSaved u.vm → u.sysSigreturn.ctx.esp = s.ctx.esp ∧ u.sysSigreturn.ctx.eip = s.ctx.eip ∧
      u.sysSigreturn.sig.savedEspAddr = 0 ∧ u.sysSigreturn.sig.savedEipAddr = 0 ∧
      u.sysSigreturn.sig.inSignalHandler = false

/-- For every stack pointer with `32` bytes of user memory below it, whose pages are mapped or can be allocated, the frame
of a handler is as it should be, and `sys_sigreturn` undoes the delivery. -/
theorem sigreturn_undoes {s : Proc} (h : Isolated s.vm) (hp : 1 ≤ s.pid) (hlo : VM_USERLO + 32 ≤ s.ctx.esp.toNat)
    (hhi : s.ctx.esp.toNat ≤ VM_USERHI) {signum : ℕ} (hh : s.sig.handler signum ≠ 0) (hb : s.Backs s.vm (s.frame signum)) :
    Delivered s (s.deliverSignal signum) signum := by
  obtain ⟨hdown, hin⟩ := frame_layout hlo hhi signum
  have hat := frameAt hlo
  obtain ⟨-, hthere, -⟩ := placed_pushes hp h hdown hb
  have hd : s.deliverSignal signum = { s with
      vm := s.pushes s.vm (s.frame signum)
      ctx := { s.ctx with esp := s.aligned - 8, eip := s.sig.handler signum }
      sig := { s.sig with savedEspAddr := s.ctx.esp - 8, savedEipAddr := s.ctx.esp - 4, inSignalHandler := true }
      stack := s.ctx :: s.stack } := if_pos hh
  rw [hd]
  have wesp := (hthere (s.ctx.esp - 8, wordBytes s.ctx.esp) (by simp [Proc.frame])).word
  have weip := (hthere (s.ctx.esp - 4, wordBytes s.ctx.eip) (by simp [Proc.frame])).word
  have warg := (hthere (s.aligned - 4, wordBytes (UInt32.ofNat signum)) (by simp [Proc.frame])).word
  have wret := (hthere (s.aligned - 8, wordBytes s.trampolineAddr) (by simp [Proc.frame])).word
  have hle : 32 ≤ s.ctx.esp.toNat := by
    unfold VM_USERLO at hlo
    omega
  refine ⟨fun x hx => ?_, hdown.below, rfl, wret, ?_, fun u hpid hes hei hk => ?_⟩
  · obtain ⟨h1, h2, -⟩ := hin x hx
    exact ⟨by omega, by omega, hthere x hx⟩
  · show HasWord _ _ ((s.aligned - 8).toNat + 4) _
    have harg := hat.arg
    have hret := hat.ret
    rwa [show (s.aligned - 8).toNat + 4 = (s.aligned - 4).toNat by omega]
  · have hbyte : ∀ j < 8, u.vm.Present s.pid ((s.ctx.esp.toNat - 8 + j) / PAGESIZE) ∧
        u.vm.userByte s.pid (s.ctx.esp.toNat - 8 + j) = (s.pushes s.vm (s.frame signum)).userByte s.pid (s.ctx.esp.toNat - 8 + j) := by
      rw [← hat.esp]
      exact hk
    dsimp only at wesp weip
    rw [hat.esp] at wesp
    rw [hat.eip, show s.ctx.esp.toNat - 4 = s.ctx.esp.toNat - 8 + 4 by omega] at weip
    have huesp := wesp.kept (b := 0) (by omega) hbyte
    have hueip := weip.kept (by omega) hbyte
    rw [show s.ctx.esp.toNat - 8 + 4 = s.ctx.esp.toNat - 4 by omega] at hueip
    rw [← hpid] at huesp hueip
    rw [sysSigreturn_eq hlo hhi hes hei huesp hueip]
    exact ⟨rfl, rfl, rfl, rfl, rfl⟩

/-- Process `1` with a page of memory. -/
def onePage : Vm := (Vm.start2G.step (.split 0 1000)).step (.allocPage 1 0x40000000 7)

/-- Where process `1` is, with `eax` in that register and zeros in the others. -/
def mainCtx (eax : UInt32) : Ctx := ⟨0x40000200, 0x40000100, ⟨0, 0, 0, 0, 0, 0, eax⟩⟩

/-- Process `1` has handlers for the signals `10` and `12`. -/
def signalled (eax : UInt32) : Proc where
  pid := 1
  ctx := mainCtx eax
  vm := onePage
  sig := ⟨fun n => if n = 10 then 0x40000400 else if n = 12 then 0x40000500 else 0, 0, 0, 0, false⟩
  dead := false
  kva := ⟨0x100000, by decide⟩
  stack := []

def Proc.interrupt (s : Proc) : Proc := s.act (.trap s.ctx s.vm s.sig.handler)

/-- A handler that changed no register returns: the trampoline is below the stack pointer `esp` of the context. -/
def Proc.handlerReturns (s : Proc) (esp : UInt32) : Proc :=
  s.act (.user ⟨esp - 20 + 7, (esp - 20) / 4 * 4 - 4, { s.ctx.regs with eax := 29 }⟩ s.vm)

def oneSignal (eax : UInt32) : Proc := ((signalled eax).act (.post 10)).interrupt.handlerReturns 0x40000100

theorem isolated_onePage : Isolated onePage := by
  have h : Isolated Vm.start2G := isolated_pdirInitKern mem2G (by decide) fun _ _ => 0
  have h1 := (h.step (a := .split 0 1000) trivial trivial).1
  exact (h1.step (a := .allocPage 1 0x40000000 7) (by simp only [VmAct.User]; decide) (by simp only [VmAct.PermBits]; decide)).1

theorem stackFits_onePage : StackFits onePage 1 0x40000100 := by
  have hpres : onePage.Present 1 262144 := by decide +kernel
  have hmiss : onePage.missingIn 1 (pagesOf (0x40000100 - 32) 32) = 0 := by
    unfold Vm.missingIn pagesOf
    rw [Finset.card_eq_zero, Finset.filter_eq_empty_iff]
    intro q hq
    rw [Finset.mem_Ico] at hq
    obtain rfl : q = 262144 := by
      unfold PAGESIZE at hq
      omega
    exact not_not.mpr hpres
  refine ⟨by decide, by decide, ?_, ?_⟩
  · rw [hmiss]
    decide +kernel
  · rw [hmiss]
    exact Nat.zero_le _

theorem sigreturn_undoes_one : Delivered (signalled 0) ((signalled 0).deliverSignal 10) 10 := by
  have hfit : StackFits (signalled 0).vm (signalled 0).pid (signalled 0).ctx.esp.toNat := stackFits_onePage
  have hi : Isolated (signalled 0).vm := isolated_onePage
  obtain ⟨hlo, hhi, hroom⟩ := hfit
  have hb := backs_of_room le_rfl (by omega) (by omega) hi hroom (frame_layout hlo hhi 10).2
  exact sigreturn_undoes hi le_rfl hlo hhi (by decide) hb

theorem sigreturn_restores_oneSignal :
    (oneSignal 0).stack = [mainCtx 0] ∧ (oneSignal 0).sysSigreturn.ctx = mainCtx 0 ∧ (oneSignal 0).sysSigreturn.stack = [] := by
  have h₀ : Unsignalled (signalled 0) := ⟨le_rfl, isolated_onePage, rfl, rfl, rfl⟩
  have step₁ : SigStep (signalled 0) ((signalled 0).act (.post 10)) :=
    ⟨.post 10, by simp only [SigAct.Leaves]; decide, ⟨nofun, trivial⟩, rfl⟩
  have step₂ : SigStep ((signalled 0).act (.post 10)) ((signalled 0).act (.post 10)).interrupt := by
    refine ⟨.trap (mainCtx 0) onePage (signalled 0).sig.handler, ⟨isolated_onePage, fun hne => absurd rfl hne⟩,
      ⟨fun t ht => ?_, trivial⟩, rfl⟩
    obtain rfl := Option.some.inj ht
    exact fun _ _ _ _ => ⟨rfl, stackFits_onePage, rfl⟩
  have hreach := (ReflTransGen.single step₁).tail step₂
  have hi := h₀.sigInv.reach hreach
  have step₃ : SigStep ((signalled 0).act (.post 10)).interrupt (oneSignal 0) :=
    ⟨.user _ _, ⟨hi.inv, hi.keepsSaved⟩, ⟨nofun, trivial⟩, rfl⟩
  have hst : (oneSignal 0).stack = [mainCtx 0] := by decide
  refine ⟨hst, sigreturn_restores h₀ (hreach.tail step₃) ⟨fun t ht => ?_, fun c hc => ?_⟩ hst⟩
  · obtain rfl := Option.some.inj ht
    have hnone : (oneSignal 0).sysSigreturn.nextSignal = none := by decide +kernel
    intro signum hsig
    rw [hnone] at hsig
    cases hsig
  · rw [hst] at hc
    obtain rfl : mainCtx 0 = c := by simpa using hc
    show _ = _
    decide

/-- Two signals arrive, the second one is delivered in the handler of the first, and both handlers return. -/
def nestedSignals : Proc :=
  ((((((signalled 0).act (.post 10)).act (.post 12)).interrupt.interrupt).handlerReturns 0x400000E4).act
    .sigreturn).handlerReturns 0x40000100

/-- The second `sys_sigreturn` finds no address and returns an error to the trampoline, which loops for ever; and a
single handler returns to a program whose `eax` was `7` and is `0` now. -/
theorem nested_signal_lost :
    nestedSignals.stack = [mainCtx 0] ∧ nestedSignals.sysSigreturn.ctx.eip = 0x400000EC + 7 ∧
      nestedSignals.sysSigreturn.ctx.regs.eax = E_INVAL_ADDR ∧ nestedSignals.sysSigreturn.ctx ≠ mainCtx 0 ∧
      (oneSignal 7).stack = [mainCtx 7] ∧ (oneSignal 7).sysSigreturn.ctx = mainCtx 0 := by
  decide +kernel

end MCertiKOS.Thread
