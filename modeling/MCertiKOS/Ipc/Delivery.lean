import MCertiKOS.Ipc.Sync
import MCertiKOS.Memory.UserBytes

/-!
# What a message delivers

`sys_sync_recv` copies a message through `msg_buf`, at most `MSG_BUF_SIZE` bytes at a time. `ipc_copy` does not look
at the results of `pt_copyin` and `pt_copyout`: when the sender's range is refused, the receiver gets what an earlier
message left in `msg_buf` (`message_of_others`); and `length` is an `int`, so nothing is copied for a length of
`2 ^ 31` or more.

When both ranges are in user memory, the length is below `2 ^ 31` and there is room for the pages that are not
mapped, the receiver gets the sender's bytes and nothing else changes (`ipc_delivers`).
-/

namespace MCertiKOS.Ipc

open Library Memory Paging Relation Vm

/-! ### Room for two -/

/-- The quotas of `p` and `q` and the free pages suffice for the pages of `S` and `T` that the two have not mapped. -/
structure Purse (v : Vm) (p : ℕ) (S : Finset ℕ) (q : ℕ) (T : Finset ℕ) : Prop where
  fst : (v.pmm.container p).usage.toNat + 2 * v.missingIn p S ≤ (v.pmm.container p).quota.toNat
  snd : (v.pmm.container q).usage.toNat + 2 * v.missingIn q T ≤ (v.pmm.container q).quota.toNat
  pages : 2 * v.missingIn p S + 2 * v.missingIn q T ≤ v.pmm.table.above.card

namespace Purse

variable {v t : Vm} {p q : ℕ} {S T S' : Finset ℕ}

theorem symm (h : Purse v p S q T) : Purse v q T p S := ⟨h.snd, h.fst, by have := h.pages; omega⟩

theorem room (h : Purse v p S q T) (hS : S' ⊆ S) : Room v.pmm p (2 * v.missingIn p S') := by
  have h1 := h.fst
  have h2 := h.pages
  have h3 := v.missingIn_mono p hS
  exact ⟨by omega, by omega⟩

theorem spend (h : Purse v p S q T) (hpq : q ≠ p) (hs : Spends v t p S) (hT : t.missingIn q T = v.missingIn q T) :
    Purse t p S q T := by
  have h1 := h.fst
  have h2 := h.snd
  have h3 := h.pages
  have h4 := hs.usage
  have h5 := hs.pages
  refine ⟨?_, ?_, ?_⟩
  · rw [hs.quota]
    omega
  · rw [hs.other q hpq, hT]
    exact h2
  · omega

end Purse

/-! ### One chunk -/

/-- The pages that a copy from `q` to `p` may map. -/
def NewPages (p dest q source k : ℕ) (p' a : ℕ) : Prop := InPages q source k p' a ∨ InPages p dest k p' a

/-- `k` bytes at `source` of `q` have been copied to `dest` of `p`, and nothing else has changed. -/
structure Delivered (v t : Vm) (p dest q source k : ℕ) : Prop where
  bytes : ∀ j < k, t.userByte p (dest + j) = t.userByte q (source + j)
  present_dest : ∀ j < k, t.Present p ((dest + j) / PAGESIZE)
  present_source : ∀ j < k, t.Present q ((source + j) / PAGESIZE)
  /-- No other byte of a page that was mapped has changed, and no page outside of the ranges became mapped. -/
  untouched : Untouched v t (NewPages p dest q source k) (InRange p dest k)

def InUser (a len : ℕ) : Prop := VM_USERLO ≤ a ∧ a + len ≤ VM_USERHI

variable {a len q : ℕ} {v : Vm}

theorem InUser.page (h : InUser a len) {j : ℕ} (hj : j < len) : UserPage ((a + j) / PAGESIZE) := by
  obtain ⟨h1, h2⟩ := h
  unfold VM_USERLO at h1
  unfold VM_USERHI at h2
  unfold UserPage PAGESIZE
  omega

theorem InUser.pages (h : InUser a len) (hq : q ∈ pagesOf a len) : UserPage q :=
  userPage_of_mem_pagesOf h.1 h.2 hq

theorem InUser.rangeOk {uva kva : UInt32} (h : InUser uva.toNat len) (hlen : len ≤ MSG_BUF_SIZE)
    (hk : kva.toNat + MSG_BUF_SIZE ≤ VM_USERLO) : Vm.rangeOk uva kva (UInt32.ofNat len) = true := by
  unfold MSG_BUF_SIZE at hlen hk
  unfold VM_USERLO at hk
  have hn : (UInt32.ofNat len).toNat = len := UInt32.toNat_ofNat_of_lt' (by unfold UInt32.size; omega)
  refine rangeOk_of_user h.1 (by rw [hn]; exact h.2) ?_
  rw [hn]
  unfold VM_USERHI
  omega

section Copy

variable {v : Vm} {p q : ℕ} {bufAddr dest source : UInt32} {S T : Finset ℕ}

theorem ipcCopyChunk_spec (h : Isolated v) (hp : 1 ≤ p) (hq : 1 ≤ q) (hpq : p ≠ q)
    (hbuf : bufAddr.toNat + MSG_BUF_SIZE ≤ VM_USERLO) {len : ℕ} (hlen : len ≤ MSG_BUF_SIZE)
    (hd : InUser dest.toNat len) (hs : InUser source.toNat len) (hS : ∀ x ∈ S, UserPage x) (hT : ∀ x ∈ T, UserPage x)
    (hsS : pagesOf source.toNat len ⊆ S) (hdT : pagesOf dest.toNat len ⊆ T) (hpurse : Purse v q S p T) (buf : List UInt8) :
    Isolated (ipcCopyChunk bufAddr p q dest source len buf v).2 ∧
      Delivered v (ipcCopyChunk bufAddr p q dest source len buf v).2 p dest.toNat q source.toNat len ∧
      Purse (ipcCopyChunk bufAddr p q dest source len buf v).2 q S p T ∧
      ∀ buf', ipcCopyChunk bufAddr p q dest source len buf' v =
        (((ipcCopyChunk bufAddr p q dest source len buf v).1.take len) ++ buf'.drop len,
          (ipcCopyChunk bufAddr p q dest source len buf v).2) := by
  have hn : (UInt32.ofNat len).toNat = len := by
    unfold MSG_BUF_SIZE at hlen
    exact UInt32.toNat_ofNat_of_lt' (by unfold UInt32.size; omega)
  -- the copy from the sender
  have hin : v.ptCopyin q source bufAddr (UInt32.ofNat len) = copyLoop q memcpyIn len v source 0 len := by
    rw [Vm.ptCopyin, if_pos (hs.rangeOk hlen hbuf), hn]
  have hroom := hpurse.room hsS
  obtain ⟨hbytes, hpass⟩ := copyin_spec h hq le_rfl hs.1 hs.2 hroom 0
  have hdone := (copyLoop_spec harmless_memcpyIn hq le_rfl h hs.1 hs.2 (k := 0) hroom 0).1
  set r := copyLoop q memcpyIn len v source 0 len
  have hrlen : r.bytes.length = len := by
    rw [hbytes]
    simp
  have htake : ∀ buf : List UInt8, (r.bytes ++ buf.drop r.bytes.length).take len = r.bytes := by
    intro buf
    rw [List.take_append_of_le_length hrlen.ge, List.take_of_length_le hrlen.le]
  have hpurse' : Purse r.vm q S p T := hpurse.spend hpq (hpass.spends S hS hsS)
    (hpass.untouched.missingIn_eq hp hT fun x hx => hpq hx.1)
  -- the copy to the receiver
  have hout : r.vm.ptCopyout p bufAddr dest r.bytes = copyLoop p (memcpyOut r.bytes) len r.vm dest 0 len := by
    rw [Vm.ptCopyout, hrlen, if_pos (hd.rangeOk hlen hbuf)]
  have hroom' := hpurse'.symm.room hdT
  obtain ⟨hstored, hpass'⟩ := copyout_spec r.bytes hpass.inv hp le_rfl hd.1 hd.2 hroom' 0
    (by omega)
  have hdone' := (copyLoop_spec (harmless_memcpyOut r.bytes) hp le_rfl hpass.inv hd.1 hd.2 (k := 0) hroom' 0).1
  set t := (copyLoop p (memcpyOut r.bytes) len r.vm dest 0 len).vm
  have hchunk : ∀ buf, ipcCopyChunk bufAddr p q dest source len buf v = (r.bytes ++ buf.drop len, t) := by
    intro buf
    unfold ipcCopyChunk
    dsimp only
    rw [hin, htake, hout, hrlen]
  have hsource : ∀ j < len, r.vm.Present q ((source.toNat + j) / PAGESIZE) := fun j hj =>
    hdone.present _ (by omega) (by omega)
  rw [hchunk buf]
  refine ⟨hpass'.inv, ⟨fun j hj => ?_, fun j hj => hdone'.present _ (by omega) (by omega), fun j hj => ?_, ?_⟩, ?_, fun buf' => ?_⟩
  · have h1 := hpass'.untouched.byte q (source.toNat + j) hq (hs.page hj) (hsource j hj) fun hw => hpq hw.1.symm
    rw [hstored j hj, h1, hbytes, Nat.zero_add, List.getD_eq_getElem _ _ (by simpa using hj)]
    simp
  · exact hpass'.untouched.present hq (hs.page hj) (hsource j hj)
  · refine (hpass.untouched.mono (fun _ _ => .inl) fun _ _ => False.elim).trans (hpass'.untouched.mono (fun _ _ => .inr) ?_)
    exact fun _ _ hw => hw
  · exact (hpurse'.symm.spend (Ne.symm hpq) (hpass'.spends T hT hdT)
      (hpass'.untouched.missingIn_eq hq hS fun x hx => hpq hx.1.symm)).symm
  · have : (r.bytes ++ buf.drop len).take len = r.bytes := by
      rw [← hrlen]
      simp
    rw [hchunk buf', this]

/-! ### The loop -/

variable {n : ℕ}

theorem Delivered.append {v t u : Vm} {p dest q source k : ℕ} (hp : 1 ≤ p) (hq : 1 ≤ q) (hpq : p ≠ q)
    (hd : InUser dest (k + n)) (hs : InUser source (k + n)) (h : Delivered v t p dest q source k)
    (h' : Delivered t u p (dest + k) q (source + k) n) : Delivered v u p dest q source (k + n) := by
  have hsplit : ∀ j < k + n, j < k ∨ ∃ i < n, j = k + i := fun j hj => by
    by_cases hjk : j < k
    · exact .inl hjk
    · exact .inr ⟨j - k, by omega, by omega⟩
  have hpages : ∀ p' a, NewPages p dest q source k p' a → NewPages p dest q source (k + n) p' a := by
    rintro p' a (⟨h1, h2⟩ | ⟨h1, h2⟩)
    · exact .inl ⟨h1, pagesOf_subset le_rfl (by omega) h2⟩
    · exact .inr ⟨h1, pagesOf_subset le_rfl (by omega) h2⟩
  have hpages' : ∀ p' a, NewPages p (dest + k) q (source + k) n p' a → NewPages p dest q source (k + n) p' a := by
    rintro p' a (⟨h1, h2⟩ | ⟨h1, h2⟩)
    · exact .inl ⟨h1, pagesOf_subset (by omega) (by omega) h2⟩
    · exact .inr ⟨h1, pagesOf_subset (by omega) (by omega) h2⟩
  have hrange : ∀ p' a, InRange p dest k p' a → InRange p dest (k + n) p' a := fun p' a hw => ⟨hw.1, hw.2.1, by
    have := hw.2.2
    omega⟩
  have hrange' : ∀ p' a, InRange p (dest + k) n p' a → InRange p dest (k + n) p' a := fun p' a hw => by
    obtain ⟨h1, h2, h3⟩ := hw
    exact ⟨h1, by omega, by omega⟩
  refine ⟨fun j hj => ?_, fun j hj => ?_, fun j hj => ?_, (h.untouched.mono hpages hrange).trans (h'.untouched.mono hpages' hrange')⟩
  · rcases hsplit j hj with hjk | ⟨i, hi, rfl⟩
    · -- the rest stores above the chunk, and only for the receiver
      rw [h'.untouched.byte p _ hp (hd.page hj) (h.present_dest j hjk) (by rintro ⟨-, h2, -⟩; omega),
        h'.untouched.byte q _ hq (hs.page hj) (h.present_source j hjk) fun hw => hpq hw.1.symm]
      exact h.bytes j hjk
    · rw [← Nat.add_assoc, ← Nat.add_assoc]
      exact h'.bytes i hi
  · rcases hsplit j hj with hjk | ⟨i, hi, rfl⟩
    · exact h'.untouched.present hp (hd.page hj) (h.present_dest j hjk)
    · rw [← Nat.add_assoc]
      exact h'.present_dest i hi
  · rcases hsplit j hj with hjk | ⟨i, hi, rfl⟩
    · exact h'.untouched.present hq (hs.page hj) (h.present_source j hjk)
    · rw [← Nat.add_assoc]
      exact h'.present_source i hi

theorem delivered_zero (v : Vm) (p dest q source : ℕ) : Delivered v v p dest q source 0 :=
  ⟨fun j hj => absurd hj (Nat.not_lt_zero j), fun j hj => absurd hj (Nat.not_lt_zero j),
    fun j hj => absurd hj (Nat.not_lt_zero j), .refl _ _ _⟩

theorem ipcCopyLoop_spec (hp : 1 ≤ p) (hq : 1 ≤ q) (hpq : p ≠ q) (hbuf : bufAddr.toNat + MSG_BUF_SIZE ≤ VM_USERLO)
    (hS : ∀ x ∈ S, UserPage x) (hT : ∀ x ∈ T, UserPage x) {fuel : ℕ} (hfuel : n ≤ fuel) (h : Isolated v)
    (hd : InUser dest.toNat n) (hs : InUser source.toNat n)
    (hsS : pagesOf source.toNat n ⊆ S) (hdT : pagesOf dest.toNat n ⊆ T) (hpurse : Purse v q S p T) (buf : List UInt8) :
    Isolated (ipcCopyLoop bufAddr p q fuel dest source n buf v).2 ∧
      Delivered v (ipcCopyLoop bufAddr p q fuel dest source n buf v).2 p dest.toNat q source.toNat n ∧
      ∀ buf', (ipcCopyLoop bufAddr p q fuel dest source n buf' v).2 = (ipcCopyLoop bufAddr p q fuel dest source n buf v).2 := by
  induction fuel generalizing v dest source n buf with
  | zero =>
    obtain rfl : n = 0 := by omega
    exact ⟨h, delivered_zero v _ _ _ _, fun _ => rfl⟩
  | succ fuel ih =>
    by_cases h0 : n = 0
    · subst h0
      have hz : ∀ buf, ipcCopyLoop bufAddr p q (fuel + 1) dest source (0 : ℕ) buf v = (buf, v) := fun _ => rfl
      simp only [hz]
      exact ⟨h, delivered_zero v _ _ _ _, fun _ => True.intro⟩
    have hlen : (if (n : ℤ) < MSG_BUF_SIZE then (n : ℤ).toNat else MSG_BUF_SIZE) = min n MSG_BUF_SIZE := by
      split_ifs <;> omega
    obtain ⟨len, hlendef⟩ : ∃ len, len = min n MSG_BUF_SIZE := ⟨_, rfl⟩
    obtain ⟨m, rfl⟩ : ∃ m, n = len + m := ⟨n - len, by omega⟩
    have hloop : ∀ buf, ipcCopyLoop bufAddr p q (fuel + 1) dest source ((len + m : ℕ) : ℤ) buf v =
        ipcCopyLoop bufAddr p q fuel (dest + UInt32.ofNat len) (source + UInt32.ofNat len) (m : ℤ)
          (ipcCopyChunk bufAddr p q dest source len buf v).1 (ipcCopyChunk bufAddr p q dest source len buf v).2 := by
      intro buf
      rw [ipcCopyLoop, if_pos (by omega), hlen, ← hlendef]
      dsimp only
      rw [show ((len + m : ℕ) : ℤ) - (len : ℤ) = m by omega]
    have hd' : InUser dest.toNat len := ⟨hd.1, by have := hd.2; omega⟩
    have hs' : InUser source.toNat len := ⟨hs.1, by have := hs.2; omega⟩
    obtain ⟨hi, hdel, hpurse', hbufs⟩ := ipcCopyChunk_spec h hp hq hpq hbuf (by omega) hd' hs' hS hT
      ((pagesOf_subset le_rfl (by omega)).trans hsS) ((pagesOf_subset le_rfl (by omega)).trans hdT) hpurse buf
    have hsum : ∀ a : UInt32, InUser a.toNat (len + m) → (a + UInt32.ofNat len).toNat = a.toNat + len := by
      intro a ha
      have h2 := ha.2
      unfold VM_USERHI at h2
      rw [UInt32.toNat_add, UInt32.toNat_ofNat_of_lt' (by unfold UInt32.size; omega), Nat.mod_eq_of_lt (by omega)]
    have hd2 : InUser (dest + UInt32.ofNat len).toNat m := by
      rw [hsum dest hd]
      exact ⟨hd.1.trans (by omega), by have := hd.2; omega⟩
    have hs2 : InUser (source + UInt32.ofNat len).toNat m := by
      rw [hsum source hs]
      exact ⟨hs.1.trans (by omega), by have := hs.2; omega⟩
    have hrest := ih (n := m) (by unfold MSG_BUF_SIZE at hlendef; omega) hi hd2 hs2
      (by rw [hsum source hs]; exact (pagesOf_subset (by omega) (by omega)).trans hsS)
      (by rw [hsum dest hd]; exact (pagesOf_subset (by omega) (by omega)).trans hdT) hpurse'
    obtain ⟨hir, hdr, -⟩ := hrest (ipcCopyChunk bufAddr p q dest source len buf v).1
    rw [hsum dest hd, hsum source hs] at hdr
    simp only [hloop]
    refine ⟨hir, .append hp hq hpq hd hs hdel hdr, fun buf' => ?_⟩
    rw [hbufs buf']
    exact (hrest _).2.2 _

end Copy

/-! ### Receives -/

/-- The condition on a message of `k` bytes from `q` to `p`: it is empty, or both ranges are in user memory, `k` is
positive as an `int`, and there is room for the pages of the ranges that are not mapped. -/
def Fits (v : Vm) (p dest q source k : ℕ) : Prop :=
  k = 0 ∨ k < 2 ^ 31 ∧ InUser dest k ∧ InUser source k ∧ Purse v q (pagesOf source k) p (pagesOf dest k)

theorem ipcCopy_spec (h : Isolated v) {p : ℕ} (hp : 1 ≤ p) (hq : 1 ≤ q) (hpq : p ≠ q)
    {bufAddr dest source k : UInt32} (hbuf : bufAddr.toNat + MSG_BUF_SIZE ≤ VM_USERLO)
    (hf : Fits v p dest.toNat q source.toNat k.toNat) (buf : List UInt8) :
    Isolated (ipcCopy bufAddr p dest q source k buf v).2 ∧
      Delivered v (ipcCopy bufAddr p dest q source k buf v).2 p dest.toNat q source.toNat k.toNat ∧
      ∀ buf', (ipcCopy bufAddr p dest q source k buf' v).2 = (ipcCopy bufAddr p dest q source k buf v).2 := by
  unfold ipcCopy
  rcases hf with h0 | ⟨hk, hd, hs, hpurse⟩
  · rw [h0]
    exact ⟨h, delivered_zero v _ _ _ _, fun _ => rfl⟩
  · have hint : k.toBitVec.toInt = (k.toNat : ℤ) := by
      rw [BitVec.toInt_eq_toNat_of_lt]
      · rfl
      · show 2 * k.toNat < 2 ^ 32
        omega
    rw [hint]
    exact ipcCopyLoop_spec hp hq hpq hbuf (fun x hx => hs.pages hx) (fun x hx => hd.pages hx) le_rfl h hd hs subset_rfl
      subset_rfl hpurse buf

namespace State

/-- A receive by `p` from `q` would find a message. -/
def Ready (s : State) (p q : ℕ) : Prop := s.msgGetBlockBySendID q ≠ some NUM_IDS ∧ (s.block q).recvPid = p

def RecvFits (s : State) (p q : ℕ) (addr recvLength : UInt32) : Prop :=
  s.Ready p q → Fits s.vm p addr.toNat q (s.block q).bufferAddr.toNat (s.copyLength q recvLength).toNat

end State

/-- The condition on a change of the memory: it is made for a process other than the kernel's, in user memory. -/
def MemAct.Fits (v : Vm) : MemAct → Prop
  | .manager a => a.User ∧ a.PermBits
  | .copy p c => 1 ≤ p ∧ c.Fits v p
  | .store p a _ => 1 ≤ p ∧ UserPage (a / PAGESIZE)

def Act.Fits (s : State) : Act → Prop
  | .recv p q addr recvLength => s.RecvFits p q addr recvLength
  | .resume p => ∀ q addr recvLength, s.call p = .recv q addr recvLength → s.RecvFits p q addr recvLength
  | .memory a => a.Fits s.vm
  | _ => True

def StepFits (s t : State) : Prop := ∃ a : Act, a.Valid ∧ a.Fits s ∧ s.act a = some t

theorem Isolated.memAct (h : Isolated v) {a : MemAct} (ha : a.Fits v) : Isolated (a.run v) := by
  cases a with
  | manager a => exact (h.step ha.1 ha.2).1
  | copy p c => exact (safeCopy_run h ha.1 ha.2).inv
  | store p a b =>
    show Isolated (userStore v p a b)
    unfold userStore
    split_ifs with hpr
    · exact (h.writeBytes ha.1 ha.2 hpr (physOf_div v p a) [b]).1
    · exact h

/-- A receive that completes: what it has copied, whatever is in the buffer. -/
structure Receives (s t : State) (a : Act) (p q : ℕ) (m : Message) (k : UInt32) (addr recvLength : UInt32) : Prop where
  /-- The step is one of a `sys_sync_recv` of `p` that names `q`. -/
  call : a = .recv p q addr recvLength ∨ a = .resume p ∧ s.call p = .recv q addr recvLength
  message : m = (s.block q).toMessage
  length : k.toNat = min m.length.toNat recvLength.toNat
  /-- The sender's bytes are copied, and nothing else has changed. -/
  delivered : Delivered s.vm t.vm p addr.toNat q m.bufferAddr.toNat k.toNat
  independent : ∀ buf, ∃ t', { s with msgBuf := buf }.act a = some t' ∧ t'.vm = t.vm

theorem copyLength_eq (s : State) (q : ℕ) (recvLength : UInt32) :
    (s.copyLength q recvLength).toNat = min (s.block q).length.toNat recvLength.toNat := by
  unfold State.copyLength
  split_ifs with h
  · rw [UInt32.lt_iff_toNat_lt] at h
    omega
  · rw [UInt32.lt_iff_toNat_lt] at h
    omega

section Run

variable {s t : State} {l : List ℕ} {p q : ℕ} {addr recvLength : UInt32}

theorem recvLoop_ready (h : Inv s l) (hc : s.call p ≠ .send) (hr : s.Ready p q) (addr recvLength : UInt32) :
    q ∈ l ∧ q ≠ p ∧ s.recvLoop p q addr recvLength = some (s.receive p q addr recvLength) := by
  obtain ⟨hfound, hrecv⟩ := hr
  rw [h.msgGetBlockBySendID q] at hfound
  have hql : q ∈ l := by
    by_contra hn
    rw [if_neg hn] at hfound
    exact hfound rfl
  refine ⟨hql, ?_, ?_⟩
  · rintro rfl
    exact hc (h.sending q hql)
  · unfold State.recvLoop
    rw [h.msgGetBlockBySendID q, Option.map_some, if_pos hql, if_neg]
    rintro (e | e)
    · exact (h.pids q hql).2.ne e
    · exact e hrecv

theorem recvLoop_not_ready (hr : ¬ s.Ready p q) (ht : s.recvLoop p q addr recvLength = some t) :
    t = s.threadSleep p (.sendCv q) := by
  unfold State.recvLoop at ht
  obtain ⟨b, hb, rfl⟩ := Option.map_eq_some_iff.mp ht
  refine if_pos ?_
  by_contra hn
  obtain ⟨h1, h2⟩ := not_or.mp hn
  refine hr ⟨fun e => h1 ?_, not_not.mp h2⟩
  rw [hb] at e
  exact Option.some.inj e

section

variable (h : Inv s l) (hi : Isolated s.vm) (hp : 1 ≤ p) (hc : s.call p ≠ .send) (hf : s.RecvFits p q addr recvLength)
include h hi hp hc hf

theorem recvLoop_vm (ht : s.recvLoop p q addr recvLength = some t) : Isolated t.vm := by
  by_cases hr : s.Ready p q
  · obtain ⟨hql, hqp, hloop⟩ := recvLoop_ready h hc hr addr recvLength
    rw [hloop] at ht
    obtain rfl := Option.some.inj ht
    exact (ipcCopy_spec hi hp (h.pids q hql).1 hqp.symm s.bufAddr.2 (hf hr) s.msgBuf).1
  · rw [recvLoop_not_ready hr ht]
    exact hi

theorem receive_spec (hr : s.Ready p q) :
    Delivered s.vm (s.receive p q addr recvLength).vm p addr.toNat q (s.block q).bufferAddr.toNat
        (s.copyLength q recvLength).toNat ∧
      ∀ buf, ∃ t', { s with msgBuf := buf }.recvLoop p q addr recvLength = some t' ∧
        t'.vm = (s.receive p q addr recvLength).vm := by
  obtain ⟨hql, hqp, -⟩ := recvLoop_ready h hc hr addr recvLength
  obtain ⟨-, hd, hbufs⟩ := ipcCopy_spec hi hp (h.pids q hql).1 hqp.symm s.bufAddr.2 (hf hr) s.msgBuf
  refine ⟨hd, fun buf => ⟨_, (recvLoop_ready (h.memory s.vm buf) hc hr addr recvLength).2.2, ?_⟩⟩
  exact hbufs buf

end

theorem sendLoop_vm (ht : s.sendLoop p = some t) : t.vm = s.vm ∧ (t.log = s.log ∨ t.log = s.log ++ [.returned p]) := by
  unfold State.sendLoop at ht
  obtain ⟨b, -, rfl⟩ := Option.map_eq_some_iff.mp ht
  split_ifs
  · exact ⟨rfl, .inl rfl⟩
  · exact ⟨rfl, .inr rfl⟩

variable {a : Act} {m : Message} {k : UInt32}

theorem isolated_act (h : Inv s l) (hi : Isolated s.vm) (ha : a.Valid) (hf : a.Fits s) (ht : s.act a = some t) :
    Isolated t.vm := by
  cases a with
  | send p m =>
    rw [State.act] at ht
    split_ifs at ht
    rw [(sendLoop_vm ht).1]
    exact hi
  | recv p q addr recvLength =>
    rw [State.act] at ht
    split_ifs at ht with hc
    have hne : s.call p ≠ .send := by rw [hc]; decide
    have h' := h.setCall ⟨ha.1, ha.2.1⟩ hne (c := .recv q addr recvLength) (by simp)
    refine recvLoop_vm h' hi ha.1 ?_ hf ht
    show Function.update s.call p _ p ≠ .send
    rw [Function.update_self]
    simp
  | resume p =>
    rw [State.act] at ht
    split_ifs at ht
    unfold State.resume at ht
    split at ht
    · cases ht
    · rw [(sendLoop_vm ht).1]
      exact hi
    · rename_i q addr recvLength hc
      have hne : s.call p ≠ .none := by rw [hc]; simp
      exact recvLoop_vm h hi (h.callers p hne).1 (by rw [hc]; simp) (hf q addr recvLength hc) ht
  | wake p =>
    obtain rfl := Option.some.inj ht
    exact hi
  | memory a =>
    obtain rfl := Option.some.inj ht
    exact Isolated.memAct hi hf

theorem reach_fits (h : Inv s l) (hi : Isolated s.vm) (hr : ReflTransGen StepFits s t) : ∃ l, Inv t l ∧ Isolated t.vm := by
  induction hr with
  | refl => exact ⟨l, h, hi⟩
  | tail _ hstep ih =>
    obtain ⟨l, hl, hvm⟩ := ih
    obtain ⟨a, ha, hf, ht⟩ := hstep
    obtain ⟨l', hl'⟩ := hl.act ha ht
    exact ⟨l', hl', isolated_act hl hvm ha hf ht⟩

theorem log_ne_self (log : List Event) (e : Event) : log ≠ log ++ [e] := by
  intro h
  have := congrArg List.length h
  simp at this

theorem receives_recvLoop (h : Inv s l) (hi : Isolated s.vm) (hp : 1 ≤ p) (hc : s.call p ≠ .send)
    (hf : s.RecvFits p q addr recvLength) (ht : s.recvLoop p q addr recvLength = some t) {p' q' : ℕ}
    (hlog : t.log = s.log ++ [.received p' q' m k]) :
    p' = p ∧ q' = q ∧ m = (s.block q).toMessage ∧ k = s.copyLength q recvLength ∧
      Delivered s.vm t.vm p addr.toNat q m.bufferAddr.toNat k.toNat ∧
      ∀ buf, ∃ t', { s with msgBuf := buf }.recvLoop p q addr recvLength = some t' ∧ t'.vm = t.vm := by
  by_cases hr : s.Ready p q
  · obtain ⟨-, -, hloop⟩ := recvLoop_ready h hc hr addr recvLength
    rw [hloop] at ht
    obtain rfl := Option.some.inj ht
    have he : s.log ++ [Event.received p q (s.block q).toMessage (s.copyLength q recvLength)] =
        s.log ++ [.received p' q' m k] := hlog
    obtain ⟨rfl, rfl, rfl, rfl⟩ := by simpa using he
    obtain ⟨hd, hbufs⟩ := receive_spec h hi hp hc hf hr
    exact ⟨rfl, rfl, rfl, rfl, hd, hbufs⟩
  · rw [recvLoop_not_ready hr ht] at hlog
    exact absurd hlog (log_ne_self _ _)

theorem receives_act (h : Inv s l) (hi : Isolated s.vm) (ha : a.Valid) (hf : a.Fits s) (ht : s.act a = some t)
    (hlog : t.log = s.log ++ [.received p q m k]) :
    ∃ addr recvLength, Receives s t a p q m k addr recvLength := by
  cases a with
  | send p' m' =>
    rw [State.act] at ht
    split_ifs at ht
    rcases (sendLoop_vm ht).2 with he | he
    · have he : t.log = s.log ++ [.sent p' m'] := he
      rw [he] at hlog
      simp at hlog
    · have he : t.log = s.log ++ [.sent p' m'] ++ [.returned p'] := he
      rw [he] at hlog
      simp at hlog
  | recv p' q' addr recvLength =>
    rw [State.act] at ht
    split_ifs at ht with hc
    have hne : s.call p' ≠ .send := by rw [hc]; decide
    have h' := h.setCall ⟨ha.1, ha.2.1⟩ hne (c := .recv q' addr recvLength) (by simp)
    have hcall : Function.update s.call p' (.recv q' addr recvLength) p' ≠ .send := by
      rw [Function.update_self]
      simp
    obtain ⟨rfl, rfl, rfl, rfl, hd, hbufs⟩ := receives_recvLoop h' hi ha.1 hcall hf ht hlog
    refine ⟨addr, recvLength, .inl rfl, rfl, copyLength_eq s q recvLength, hd, fun buf => ?_⟩
    obtain ⟨t', ht', hvm⟩ := hbufs buf
    exact ⟨t', (if_pos hc).trans ht', hvm⟩
  | resume p' =>
    rw [State.act] at ht
    split_ifs at ht with hch
    unfold State.resume at ht
    split at ht
    · cases ht
    · rcases (sendLoop_vm ht).2 with he | he
      · rw [he] at hlog
        exact absurd hlog (log_ne_self _ _)
      · rw [he] at hlog
        simp at hlog
    · rename_i q' addr recvLength hc
      have hne : s.call p' ≠ .none := by rw [hc]; simp
      obtain ⟨rfl, rfl, rfl, rfl, hd, hbufs⟩ := receives_recvLoop h hi (h.callers p' hne).1 (by rw [hc]; simp)
        (hf q' addr recvLength hc) ht hlog
      refine ⟨addr, recvLength, .inr ⟨rfl, hc⟩, rfl, copyLength_eq s q recvLength, hd, fun buf => ?_⟩
      obtain ⟨t', ht', hvm⟩ := hbufs buf
      refine ⟨t', (if_pos hch).trans ?_, hvm⟩
      rw [← ht']
      unfold State.resume
      rw [hc]
  | wake p' =>
    obtain rfl := Option.some.inj ht
    exact absurd hlog (log_ne_self _ _)
  | memory a =>
    obtain rfl := Option.some.inj ht
    exact absurd hlog (log_ne_self _ _)

end Run

/-- Along every run in which the messages that are received are empty or have both ranges in user memory, with less than
`2 ^ 31` bytes and room for the pages that are not mapped, a receive copies as many bytes as the smaller of the two
lengths says. They are the sender's, nothing else in user memory changes, and the memory afterwards does not depend on
what earlier messages left in the buffer. -/
theorem ipc_delivers (mm : List MemRange) {idptbl : ℕ} (hid : idptbl + 1024 ≤ VM_USERLO_PI) (mem : ℕ → Page)
    (msgBuf : List UInt8) (bufAddr : { a : UInt32 // a.toNat + MSG_BUF_SIZE ≤ VM_USERLO }) {s t : State}
    (h : ReflTransGen StepFits (State.ipcInit msgBuf bufAddr (Vm.pdirInitKern mm idptbl mem)) s) {a : Act} (ha : a.Valid)
    (hf : a.Fits s) (ht : s.act a = some t) {p q : ℕ} {m : Message} {k : UInt32}
    (hlog : t.log = s.log ++ [.received p q m k]) : ∃ addr recvLength, Receives s t a p q m k addr recvLength := by
  obtain ⟨l, hl, hi⟩ := reach_fits (inv_ipcInit msgBuf bufAddr _) (isolated_pdirInitKern mm hid mem) h
  exact receives_act hl hi ha hf ht hlog

def start2G : State := .ipcInit (List.replicate MSG_BUF_SIZE 0) ⟨0x100000, by decide⟩ Vm.start2G

def spawn : Act := .memory (.manager (.split 0 1000))

/-- Processes `1` and `2` are there, and `1` has sent a byte to `2` and sleeps. -/
def sentByte : State :=
  ((({ start2G with vm := (Vm.start2G.step (.split 0 1000)).step (.split 0 1000) }.enterSend 1 ⟨2, 0x40000000, 1⟩).threadWakeup
    (.sendCv 1)).threadSleep 1 (.recvCv 1))

theorem fits_sentByte : Act.Fits sentByte (.recv 2 1 0x40000000 1) := by
  intro _
  have hroom := room_start2G.pages
  have hone : ∀ p, sentByte.vm.missingIn p (pagesOf 0x40000000 1) ≤ 1 := fun p => Finset.card_filter_le _ _
  have hpages : 4 ≤ sentByte.vm.pmm.table.above.card := hroom
  have hq : ∀ p, p = 1 ∨ p = 2 → (sentByte.vm.pmm.container p).usage.toNat + 2 ≤ (sentByte.vm.pmm.container p).quota.toNat := by
    rintro p (rfl | rfl)
    · simp only [sentByte, start2G, Vm.start2G, Vm.pdirInitKern, realQuota_mem2G]
      decide
    · simp only [sentByte, start2G, Vm.start2G, Vm.pdirInitKern, realQuota_mem2G]
      decide
  have h1 := hone 1
  have h2 := hone 2
  refine .inr ⟨by decide, by unfold InUser; decide, by unfold InUser; decide, ?_, ?_, ?_⟩
  · exact (Nat.add_le_add_left (Nat.mul_le_mul_left 2 h1) _).trans (hq 1 (.inl rfl))
  · exact (Nat.add_le_add_left (Nat.mul_le_mul_left 2 h2) _).trans (hq 2 (.inr rfl))
  · exact (Nat.add_le_add (Nat.mul_le_mul_left 2 h1) (Nat.mul_le_mul_left 2 h2)).trans hpages

theorem ipc_delivers_byte :
    ∃ t, sentByte.act (.recv 2 1 0x40000000 1) = some t ∧
      ∃ addr recvLength, Receives sentByte t (.recv 2 1 0x40000000 1) 2 1 ⟨2, 0x40000000, 1⟩ 1 addr recvLength := by
  have hstep : ∀ s t : State, s.act spawn = some t → StepFits s t := fun s t h =>
    ⟨spawn, trivial, ⟨trivial, trivial⟩, h⟩
  have hreach : ReflTransGen StepFits start2G sentByte :=
    .tail (.tail (.single (hstep _ _ rfl)) (hstep _ _ rfl)) ⟨.send 1 ⟨2, 0x40000000, 1⟩, by decide, trivial, rfl⟩
  exact ⟨_, rfl, ipc_delivers mem2G (by decide) (fun _ _ => 0) _ _ hreach (by decide) fits_sentByte rfl rfl⟩

/-- Process `3` sends `b` to process `4`, and then process `1` sends a byte at address `0` to process `2`. -/
def leak (b : UInt8) : List Act :=
  [spawn, spawn, spawn, spawn, .memory (.manager (.allocPage 3 0x40000000 7)), .memory (.store 3 0x40000000 b),
    .send 3 ⟨4, 0x40000000, 1⟩, .recv 4 3 0x40000000 1, .send 1 ⟨2, 0, 1⟩, .recv 2 1 0x40000000 1]

/-- `pt_copyin` refuses the address `0`, and process `2` gets the byte of process `3`: `42` in one run, `43` in the
other. -/
theorem message_of_others :
    (∀ a ∈ leak 42, a.Valid) ∧ (∀ a ∈ leak 43, a.Valid) ∧
      (start2G.acts (leak 42)).map (fun s => (s.log.getLast?, s.vm.userByte 2 0x40000000, s.vm.userByte 1 0)) =
        some (some (.received 2 1 ⟨2, 0, 1⟩ 1), 42, 0) ∧
      (start2G.acts (leak 43)).map (fun s => (s.log.getLast?, s.vm.userByte 2 0x40000000, s.vm.userByte 1 0)) =
        some (some (.received 2 1 ⟨2, 0, 1⟩ 1), 43, 0) := by
  refine ⟨by decide, by decide, ?_, ?_⟩
  · simp only [start2G, Vm.start2G, Vm.pdirInitKern, realQuota_mem2G]
    decide +kernel
  · simp only [start2G, Vm.start2G, Vm.pdirInitKern, realQuota_mem2G]
    decide +kernel

end MCertiKOS.Ipc
