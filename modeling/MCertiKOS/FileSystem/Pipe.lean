import MCertiKOS.Library.RingBuffer
import Mathlib.Logic.Relation

/-!
# Pipes

`struct pipe` of `kern/fs/file.h` and the pipe functions of `kern/fs/file.c`: a circular buffer of `PIPESIZE` bytes
indexed by two free-running `uint32_t` counters `nread` and `nwrite`, with a flag for each end that is still open.

`pipe_write` and `pipe_read` hold `pipe_cache.lock` except while they sleep, so a call is a sequence of *segments*:
from the call, or from a return of `thread_sleep`, to the next `thread_sleep` or to the return. `pipeWriteRun` and
`pipeRead` are these segments; a call that sleeps goes on with the same segment on what is left of its bytes. A
process may be resumed when nothing has changed.

`PipeSys` runs any number of calls of any number of processes against one pipe. The bytes stored by writers and
delivered to readers are recorded.
-/

namespace MCertiKOS.FileSystem

open Library Relation List

abbrev PIPESIZE : ℕ := 512

/-- `struct pipe`. The flags are `int`s that hold `0` or `1`. -/
structure Pipe where
  ref : ℕ
  data : Fin PIPESIZE → UInt8
  /-- Number of bytes read, modulo `2^32`. -/
  nread : UInt32
  /-- Number of bytes written, modulo `2^32`. -/
  nwrite : UInt32
  readopen : Bool
  writeopen : Bool

/-- The channels a process sleeps on: the addresses of the two counters. -/
inductive PipeChan where
  /-- `&p->nread`. -/
  | nread
  /-- `&p->nwrite`. -/
  | nwrite
  deriving DecidableEq

namespace Pipe

/-- What `pipe_alloc` stores in a free slot of the pipe cache. -/
def opened (p : Pipe) : Pipe :=
  { p with ref := 2, readopen := true, writeopen := true, nwrite := 0, nread := 0 }

/-- `pipe_close`: the pipe, and the channel that is woken. -/
def close (p : Pipe) (writable : Bool) : Pipe × PipeChan :=
  let q : Pipe × PipeChan :=
    if writable then ({ p with writeopen := false }, .nread) else ({ p with readopen := false }, .nwrite)
  if q.1.readopen = false ∧ q.1.writeopen = false then ({ q.1 with ref := 0 }, q.2) else q

/-- The test of the inner loop of `pipe_write`. -/
def full (p : Pipe) : Prop := p.nwrite = p.nread + UInt32.ofNat PIPESIZE

/-- The test of the loops of `pipe_read`. -/
def empty (p : Pipe) : Prop := p.nread = p.nwrite

instance (p : Pipe) : Decidable p.full := inferInstanceAs (Decidable (_ = _))

instance (p : Pipe) : Decidable p.empty := inferInstanceAs (Decidable (_ = _))

/-- `p->data[p->nwrite++ % PIPESIZE] = b`. -/
def store (p : Pipe) (b : UInt8) : Pipe :=
  { p with data := Function.update p.data (Fin.ofNat PIPESIZE p.nwrite.toNat) b, nwrite := p.nwrite + 1 }

/-- `p->data[p->nread++ % PIPESIZE]`: the byte read. -/
def front (p : Pipe) : UInt8 := p.data (Fin.ofNat PIPESIZE p.nread.toNat)

/-- `p->data[p->nread++ % PIPESIZE]`: the pipe after it. -/
def advance (p : Pipe) : Pipe := { p with nread := p.nread + 1 }

end Pipe

/-! ### The segments -/

/-- Where a segment of `pipe_write` ends, with the bytes not stored yet. -/
inductive WriteEnd where
  /-- All bytes are stored: wake `&p->nread` and return `n`. -/
  | done
  /-- The pipe is full and its read end closed: return `-1`. -/
  | broken (rest : List UInt8)
  /-- The pipe is full: wake `&p->nread` and sleep on `&p->nwrite`. -/
  | sleep (rest : List UInt8)

def WriteEnd.rest : WriteEnd → List UInt8
  | done => []
  | broken rest => rest
  | sleep rest => rest

/-- A segment of `pipe_write` on the bytes `addr[i], …, addr[n-1]` that are left. -/
def pipeWriteRun : List UInt8 → Pipe → Pipe × WriteEnd
  | [], p => (p, .done)
  | b :: bs, p =>
    if p.full then
      if p.readopen = false then (p, .broken (b :: bs)) else (p, .sleep (b :: bs))
    else pipeWriteRun bs (p.store b)

/-- The `for` loop of `pipe_read`: at most `n` bytes, fewer when the pipe runs empty. -/
def pipeReadRun : ℕ → Pipe → Pipe × List UInt8
  | 0, p => (p, [])
  | n + 1, p =>
    if p.empty then (p, [])
    else
      let r := pipeReadRun n p.advance
      (r.1, p.front :: r.2)

/-- A segment of `pipe_read`: `none` when it sleeps on `&p->nread`, else the bytes it
returns; it then wakes `&p->nwrite`. -/
def pipeRead (n : ℕ) (p : Pipe) : Option (Pipe × List UInt8) :=
  if p.empty ∧ p.writeopen = true then none else some (pipeReadRun n p)

/-! ### A pipe as a queue -/

namespace Pipe

/-- The buffer as a ring whose counters wrap at `2^32`. -/
def ring (p : Pipe) : Ring UInt8 PIPESIZE := ⟨p.data, p.nread.toNat, p.nwrite.toNat⟩

def contents (p : Pipe) : List UInt8 := p.ring.contents (2 ^ 32)

/-- At most `PIPESIZE` bytes are in the buffer. -/
def Ok (p : Pipe) : Prop := (p.nwrite - p.nread).toNat ≤ PIPESIZE

theorem dvd_two_pow : PIPESIZE ∣ 2 ^ 32 := ⟨2 ^ 23, rfl⟩

theorem lt_two_pow : PIPESIZE < 2 ^ 32 := by decide

theorem ring_count (p : Pipe) : p.ring.count (2 ^ 32) = (p.nwrite - p.nread).toNat := by
  rw [UInt32.toNat_sub]
  rfl

theorem ok_iff (p : Pipe) : p.Ok ↔ p.ring.Ok (2 ^ 32) := by
  constructor
  · intro h
    exact ⟨p.nread.toNat_lt, p.nwrite.toNat_lt, by rw [ring_count]; exact h⟩
  · intro h
    have := h.count_le
    rwa [ring_count] at this

theorem ring_store (p : Pipe) (b : UInt8) : (p.store b).ring = p.ring.push (2 ^ 32) b := by
  simp only [ring, store, Ring.push, UInt32.toNat_add, UInt32.toNat_one]

theorem ring_advance (p : Pipe) : p.advance.ring = p.ring.pop (2 ^ 32) := by
  simp only [ring, advance, Ring.pop, UInt32.toNat_add, UInt32.toNat_one]

variable {p : Pipe}

section

variable (h : p.Ok)
include h

theorem Ok.empty_iff : p.empty ↔ p.contents = [] := by
  rw [contents, Ring.contents_eq_nil_iff, (p.ok_iff.mp h).count_eq_zero_iff]
  exact UInt32.toNat_inj.symm

theorem Ok.full_iff : p.full ↔ p.contents.length = PIPESIZE := by
  rw [contents, Ring.length_contents, (p.ok_iff.mp h).count_eq_iff lt_two_pow, full, ← UInt32.toNat_inj,
    UInt32.toNat_add]
  rfl

theorem Ok.count_lt (hf : ¬ p.full) : p.ring.count (2 ^ 32) < PIPESIZE := by
  rw [h.full_iff, contents, Ring.length_contents] at hf
  exact lt_of_le_of_ne (p.ok_iff.mp h).count_le hf

theorem Ok.count_pos (he : ¬ p.empty) : 0 < p.ring.count (2 ^ 32) := by
  rw [h.empty_iff, contents, Ring.contents_eq_nil_iff] at he
  omega

theorem Ok.store (hf : ¬ p.full) (b : UInt8) : (p.store b).Ok := by
  rw [ok_iff, ring_store]
  exact (p.ok_iff.mp h).push lt_two_pow (h.count_lt hf) b

theorem Ok.advance (he : ¬ p.empty) : p.advance.Ok := by
  rw [ok_iff, ring_advance]
  exact (p.ok_iff.mp h).pop lt_two_pow (h.count_pos he)

theorem Ok.contents_store (hf : ¬ p.full) (b : UInt8) :
    (p.store b).contents = p.contents ++ [b] := by
  rw [contents, ring_store]
  exact (p.ok_iff.mp h).contents_push dvd_two_pow lt_two_pow (h.count_lt hf) b

theorem Ok.contents_eq_cons (he : ¬ p.empty) :
    p.contents = p.front :: p.advance.contents := by
  rw [contents, contents, ring_advance]
  exact (p.ok_iff.mp h).contents_eq_cons dvd_two_pow lt_two_pow (h.count_pos he)

end

/-- Two pipes that differ at most in buffer and counters. -/
structure SameEnds (p q : Pipe) : Prop where
  ref : q.ref = p.ref
  readopen : q.readopen = p.readopen
  writeopen : q.writeopen = p.writeopen

theorem SameEnds.trans {p q r : Pipe} (h : SameEnds p q) (h' : SameEnds q r) : SameEnds p r :=
  ⟨h'.ref.trans h.ref, h'.readopen.trans h.readopen, h'.writeopen.trans h.writeopen⟩

end Pipe

/-! ### What a segment does -/

/-- What a segment of `pipe_write` does: it appends a part of its bytes to the buffer
and leaves the rest; it stops early only on a full pipe. -/
structure WriteSpec (p : Pipe) (bs : List UInt8) (q : Pipe) (e : WriteEnd) : Prop where
  ok : q.Ok
  stored : ∃ pre, bs = pre ++ e.rest ∧ q.contents = p.contents ++ pre
  ends : p.SameEnds q
  sleep : ∀ rest, e = .sleep rest → q.full ∧ q.readopen = true ∧ rest ≠ []
  broken : ∀ rest, e = .broken rest → q.full ∧ q.readopen = false

variable {p : Pipe}

theorem pipeWriteRun_spec (bs : List UInt8) (h : p.Ok) :
    WriteSpec p bs (pipeWriteRun bs p).1 (pipeWriteRun bs p).2 := by
  induction bs generalizing p with
  | nil => exact ⟨h, ⟨[], by simp [pipeWriteRun, WriteEnd.rest]⟩, ⟨rfl, rfl, rfl⟩, nofun, nofun⟩
  | cons b bs ih =>
    simp only [pipeWriteRun]
    by_cases hf : p.full
    · rw [if_pos hf]
      by_cases hr : p.readopen = false
      · rw [if_pos hr]
        exact ⟨h, ⟨[], by simp [WriteEnd.rest]⟩, ⟨rfl, rfl, rfl⟩, nofun, fun _ _ => ⟨hf, hr⟩⟩
      · rw [if_neg hr]
        refine ⟨h, ⟨[], by simp [WriteEnd.rest]⟩, ⟨rfl, rfl, rfl⟩, ?_, nofun⟩
        rintro rest ⟨⟩
        exact ⟨hf, by simpa using hr, by simp⟩
    · rw [if_neg hf]
      have hs := ih (h.store hf b)
      obtain ⟨pre, hpre, hcont⟩ := hs.stored
      refine ⟨hs.ok, ⟨b :: pre, ?_, ?_⟩, (⟨rfl, rfl, rfl⟩ : p.SameEnds (p.store b)).trans hs.ends,
        hs.sleep, hs.broken⟩
      · rw [cons_append, ← hpre]
      · rw [hcont, h.contents_store hf, append_assoc, singleton_append]

theorem pipeReadRun_spec (n : ℕ) (h : p.Ok) :
    (pipeReadRun n p).1.Ok ∧ p.SameEnds (pipeReadRun n p).1 ∧ (pipeReadRun n p).2 = p.contents.take n ∧
      (pipeReadRun n p).1.contents = p.contents.drop n := by
  induction n generalizing p with
  | zero => exact ⟨h, ⟨rfl, rfl, rfl⟩, by simp [pipeReadRun], by simp [pipeReadRun]⟩
  | succ n ih =>
    simp only [pipeReadRun]
    by_cases he : p.empty
    · rw [if_pos he, h.empty_iff.mp he]
      exact ⟨h, ⟨rfl, rfl, rfl⟩, by simp, by simp⟩
    · rw [if_neg he]
      obtain ⟨hok, hends, htake, hdrop⟩ := ih (h.advance he)
      refine ⟨hok, (⟨rfl, rfl, rfl⟩ : p.SameEnds p.advance).trans hends, ?_, ?_⟩
      · rw [htake, h.contents_eq_cons he, take_succ_cons]
      · rw [hdrop, h.contents_eq_cons he, drop_succ_cons]

theorem pipeRead_eq_nil {n : ℕ} {q : Pipe} (h : p.Ok) (hn : 0 < n) (hr : pipeRead n p = some (q, [])) :
    p.contents = [] ∧ p.writeopen = false := by
  unfold pipeRead at hr
  split_ifs at hr with hc
  have hb : (pipeReadRun n p).2 = [] := by
    rw [Option.some.injEq] at hr
    rw [hr]
  rw [(pipeReadRun_spec n h).2.2.1, take_eq_nil_iff] at hb
  have hnil : p.contents = [] := by
    rcases hb with hb | hb
    · omega
    · exact hb
  refine ⟨hnil, ?_⟩
  by_contra hw
  exact hc ⟨h.empty_iff.mpr hnil, by simpa using hw⟩

theorem Pipe.ok_opened (p : Pipe) : p.opened.Ok := by simp [Pipe.Ok, Pipe.opened]

theorem Pipe.contents_opened (p : Pipe) : p.opened.contents = [] := p.ok_opened.empty_iff.mp rfl

theorem Pipe.close_ring (p : Pipe) (writable : Bool) : (p.close writable).1.ring = p.ring := by
  unfold Pipe.close
  cases writable <;> simp only [Bool.false_eq_true, if_true, if_false] <;> split_ifs <;> rfl

/-! ### Runs of many calls on one pipe -/

/-- Where a process is with respect to the pipe. -/
inductive PipeCall where
  /-- Not in a call. -/
  | idle
  /-- In `pipe_write`, suspended at its `thread_sleep` with these bytes left. -/
  | writing (rest : List UInt8)
  /-- In `pipe_read` for at most `n` bytes, suspended at its `thread_sleep`. -/
  | reading (n : ℕ)

/-- A pipe and the processes that use it. -/
structure PipeSys (Pid : Type*) where
  pipe : Pipe
  call : Pid → PipeCall
  /-- The bytes stored by `pipe_write`, in storing order. -/
  stored : List UInt8
  /-- The bytes delivered by `pipe_read`, in delivery order. -/
  delivered : List UInt8

/-- What happens in a step. -/
inductive PipeEvent (Pid : Type*) where
  /-- A segment of a write. -/
  | write (pid : Pid)
  /-- A segment of a read for at most `n` bytes: the bytes it returns, or `none` if it sleeps. -/
  | read (pid : Pid) (n : ℕ) (ret : Option (List UInt8))
  /-- An end is closed. -/
  | close

section

variable {Pid : Type*}

/-- A pipe just made by `pipe_alloc`, and no call yet. -/
def PipeSys.init (p : Pipe) : PipeSys Pid := ⟨p.opened, fun _ => .idle, [], []⟩

/-- The invariant of a run: the buffer is not overrun and holds exactly what was
stored and not delivered. -/
structure PipeSys.Inv (s : PipeSys Pid) : Prop where
  ok : s.pipe.Ok
  fifo : s.stored = s.delivered ++ s.pipe.contents

theorem PipeSys.inv_init (p : Pipe) : (PipeSys.init p : PipeSys Pid).Inv := by
  refine ⟨p.ok_opened, ?_⟩
  simp [PipeSys.init, p.contents_opened]

variable [DecidableEq Pid]

/-- A segment of `pipe_write` by `pid` on the bytes `bs`. -/
def PipeSys.write (s : PipeSys Pid) (pid : Pid) (bs : List UInt8) : PipeSys Pid :=
  let r := pipeWriteRun bs s.pipe
  { pipe := r.1
    call := Function.update s.call pid (match r.2 with | .sleep rest => .writing rest | _ => .idle)
    stored := s.stored ++ bs.take (bs.length - r.2.rest.length)
    delivered := s.delivered }

/-- A segment of `pipe_read` by `pid` for at most `n` bytes, and the bytes it returns. -/
def PipeSys.read (s : PipeSys Pid) (pid : Pid) (n : ℕ) : PipeSys Pid × Option (List UInt8) :=
  match pipeRead n s.pipe with
  | none => ({ s with call := Function.update s.call pid (.reading n) }, none)
  | some (q, bs) =>
    ({ s with pipe := q, call := Function.update s.call pid .idle, delivered := s.delivered ++ bs }, some bs)

/-- A step: a process calls `pipe_write` or `pipe_read`, a suspended call is resumed (whether
or not it was woken for a reason), or an end of the pipe is closed. -/
inductive PipeStep : PipeSys Pid → PipeEvent Pid → PipeSys Pid → Prop where
  /-- `pipe_write` is called. -/
  | callWrite {s : PipeSys Pid} {pid : Pid} (bs : List UInt8) :
      s.call pid = .idle → PipeStep s (.write pid) (s.write pid bs)
  /-- `pipe_write` returns from `thread_sleep`. -/
  | resumeWrite {s : PipeSys Pid} {pid : Pid} {rest : List UInt8} :
      s.call pid = .writing rest → PipeStep s (.write pid) (s.write pid rest)
  /-- `pipe_read` is called. -/
  | callRead {s : PipeSys Pid} {pid : Pid} (n : ℕ) :
      s.call pid = .idle → PipeStep s (.read pid n (s.read pid n).2) (s.read pid n).1
  /-- `pipe_read` returns from `thread_sleep`. -/
  | resumeRead {s : PipeSys Pid} {pid : Pid} {n : ℕ} :
      s.call pid = .reading n → PipeStep s (.read pid n (s.read pid n).2) (s.read pid n).1
  /-- `pipe_close`. -/
  | close {s : PipeSys Pid} (writable : Bool) :
      PipeStep s .close { s with pipe := (s.pipe.close writable).1 }

def PipeSys.Next (s t : PipeSys Pid) : Prop := ∃ e, PipeStep s e t

variable {s t : PipeSys Pid}

theorem PipeSys.Inv.write (h : s.Inv) (pid : Pid) (bs : List UInt8) : (s.write pid bs).Inv := by
  have hw := pipeWriteRun_spec bs h.ok
  obtain ⟨pre, hpre, hcont⟩ := hw.stored
  refine ⟨hw.ok, ?_⟩
  have hlen : bs.length - (pipeWriteRun bs s.pipe).2.rest.length = pre.length := by
    rw [congrArg List.length hpre, length_append, Nat.add_sub_cancel]
  have htake : bs.take pre.length = pre := by
    rw [congrArg (List.take pre.length) hpre, take_left]
  show s.stored ++ bs.take (bs.length - (pipeWriteRun bs s.pipe).2.rest.length) =
    s.delivered ++ (pipeWriteRun bs s.pipe).1.contents
  rw [hcont, hlen, htake, h.fifo, append_assoc]

theorem PipeSys.Inv.read (h : s.Inv) (pid : Pid) (n : ℕ) : (s.read pid n).1.Inv := by
  unfold PipeSys.read pipeRead
  by_cases hc : s.pipe.empty ∧ s.pipe.writeopen = true
  · rw [if_pos hc]
    exact ⟨h.ok, h.fifo⟩
  · rw [if_neg hc]
    obtain ⟨hok, -, htake, hdrop⟩ := pipeReadRun_spec n h.ok
    refine ⟨hok, ?_⟩
    show s.stored = (s.delivered ++ (pipeReadRun n s.pipe).2) ++ (pipeReadRun n s.pipe).1.contents
    rw [htake, hdrop, append_assoc, take_append_drop, h.fifo]

theorem PipeStep.inv {e : PipeEvent Pid} (hs : PipeStep s e t) (h : s.Inv) : t.Inv := by
  cases hs with
  | callWrite bs _ => exact h.write _ bs
  | resumeWrite _ => exact h.write _ _
  | callRead n _ => exact h.read _ n
  | resumeRead _ => exact h.read _ _
  | close writable =>
    have hr := s.pipe.close_ring writable
    refine ⟨?_, ?_⟩
    · rw [Pipe.ok_iff, hr, ← Pipe.ok_iff]
      exact h.ok
    · show s.stored = s.delivered ++ (s.pipe.close writable).1.contents
      rw [Pipe.contents, hr]
      exact h.fifo

theorem PipeSys.inv_of_reach {p : Pipe}
    (h : ReflTransGen PipeSys.Next (PipeSys.init p) s) : s.Inv := by
  induction h with
  | refl => exact PipeSys.inv_init p
  | tail _ hs ih =>
    obtain ⟨e, he⟩ := hs
    exact he.inv ih

theorem PipeStep.read_nil {pid : Pid} {n : ℕ} (h : s.Inv) (hn : 0 < n)
    (hs : PipeStep s (.read pid n (some [])) t) : s.pipe.contents = [] ∧ s.pipe.writeopen = false := by
  have key : (s.read pid n).2 = some [] := by
    generalize he : PipeEvent.read pid n (some []) = e at hs
    cases hs with
    | callWrite | resumeWrite | close => cases he
    | callRead n' _ =>
      injection he with h1 h2 h3
      rw [h1, h2, ← h3]
    | resumeRead _ =>
      injection he with h1 h2 h3
      rw [h1, h2, ← h3]
  unfold PipeSys.read at key
  split at key
  · cases key
  · rename_i q bs hr
    rw [Option.some.injEq] at key
    subst key
    exact pipeRead_eq_nil h.ok hn hr

/-- **A pipe is a lossless FIFO.** In every run of writes and reads of any processes, with
any number of bytes: the counters are at most `PIPESIZE` apart modulo `2^32`, the bytes
stored are the bytes delivered followed by the buffer contents, and a read of `n > 0`
bytes returns `0` only from an empty pipe whose write end is closed. -/
theorem pipe_lossless_fifo (p : Pipe) (s : PipeSys Pid)
    (h : ReflTransGen PipeSys.Next (PipeSys.init p) s) :
    (s.pipe.nwrite - s.pipe.nread).toNat ≤ PIPESIZE ∧
      s.delivered <+: s.stored ∧ s.stored = s.delivered ++ s.pipe.contents ∧
      ∀ (pid : Pid) (n : ℕ) (t : PipeSys Pid), 0 < n → PipeStep s (.read pid n (some [])) t →
        s.pipe.contents = [] ∧ s.pipe.writeopen = false := by
  have hi := PipeSys.inv_of_reach h
  refine ⟨hi.ok, ?_, hi.fifo, fun _ _ _ hn hs => hs.read_nil hi hn⟩
  rw [hi.fifo]
  exact prefix_append _ _

end

def zeroPipe : Pipe := ⟨0, fun _ => 0, 0, 0, false, false⟩

theorem pipe_lossless_fifo_write_read :
    let s : PipeSys Bool := (((PipeSys.init zeroPipe).write true [1, 2, 3]).read false 2).1
    s.delivered = [1, 2] ∧ s.delivered <+: s.stored ∧ s.stored = s.delivered ++ s.pipe.contents := by
  intro s
  have hrun : ReflTransGen PipeSys.Next (PipeSys.init zeroPipe) s :=
    (ReflTransGen.single ⟨_, .callWrite [1, 2, 3] rfl⟩).tail ⟨_, .callRead 2 rfl⟩
  obtain ⟨-, h1, h2, -⟩ := pipe_lossless_fifo zeroPipe s hrun
  exact ⟨rfl, h1, h2⟩

end MCertiKOS.FileSystem
