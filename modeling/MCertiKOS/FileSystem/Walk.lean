import MCertiKOS.FileSystem.Directory

/-!
# Walking along a path

A path is a list of names between slashes (`components`). `skipelem` takes the first
one off. It works on a string in memory: `skipelemAt` reads byte by byte, and a read
behind the terminator is an error, which does not occur (`skipelemAt_spec`).

`namex` goes from directory to directory. What it returns is `walk`, the names looked
up one after the other in the tree of the inodes on disk; and the references it takes
on the way are given back, but for the one it returns (`Doing.runs_namex`).
-/

namespace MCertiKOS.FileSystem.Fs

open Library List Option

/-! ### The names of a path -/

/-- The names between slashes, cut to `DIRSIZ - 1` characters. -/
def components (path : List UInt8) : List (List UInt8) := ((path.splitOn slash).filter (· ≠ [])).map (List.take (DIRSIZ - 1))

theorem splitOn_slash {elem : List UInt8} (h : slash ∉ elem) (path : List UInt8) :
    (elem ++ slash :: path).splitOn slash = elem :: path.splitOn slash :=
  splitOnP_append_cons_of_forall_mem (p := (· == slash)) (fun _ hc => beq_false_of_ne fun e => h (e ▸ hc)) slash
    (beq_self_eq_true slash) path

theorem components_slash (path : List UInt8) : components (slash :: path) = components path := by
  have h : (slash :: path).splitOn slash = [] :: path.splitOn slash := splitOn_slash not_mem_nil path
  rw [components, h]
  rfl

theorem components_dropWhile (path : List UInt8) : components (path.dropWhile (· = slash)) = components path := by
  induction path with
  | nil => rfl
  | cons c path ih =>
    by_cases hc : c = slash
    · rw [dropWhile_cons_of_pos (by simpa using hc), ih, hc, components_slash]
    · rw [dropWhile_cons_of_neg (by simpa using hc)]

variable {c : UInt8} {total : Prop}

theorem head_of_dropWhile {P : UInt8 → Bool} {l l' : List UInt8} (h : l.dropWhile P = c :: l') : P c = false := by
  have := List.head?_dropWhile_not P l
  rwa [h] at this

theorem components_cons (hc : c ≠ slash) (path : List UInt8) :
    components (c :: path) =
      ((c :: path).takeWhile (· ≠ slash)).take (DIRSIZ - 1) :: components ((c :: path).dropWhile (· ≠ slash)) := by
  set elem := (c :: path).takeWhile (· ≠ slash) with helem
  have hne : elem ≠ [] := by
    rw [helem, takeWhile_cons_of_pos (by simpa using hc)]
    exact cons_ne_nil _ _
  have hfilter : ∀ l, (elem :: l).filter (· ≠ []) = elem :: l.filter (· ≠ []) := fun l => filter_cons_of_pos (by simpa using hne)
  have hslash : slash ∉ elem := fun hm => by simpa using mem_takeWhile_imp hm
  have happ : elem ++ (c :: path).dropWhile (· ≠ slash) = c :: path := takeWhile_append_dropWhile
  cases hafter : (c :: path).dropWhile (· ≠ slash) with
  | nil =>
    rw [hafter, append_nil] at happ
    rw [← happ, components, splitOn_eq_singleton hslash, hfilter]
    rfl
  | cons c' after =>
    obtain rfl : c' = slash := by simpa using head_of_dropWhile hafter
    rw [hafter] at happ
    rw [← happ, components, splitOn_slash hslash, hfilter, map_cons, ← components, components_slash]

theorem skipelem_spec (path : List UInt8) :
    match skipelem path with
    | none => components path = []
    | some (rest, name) => components path = name :: components rest ∧ rest.length < path.length ∧ (rest = [] ↔ components rest = []) := by
  rw [← components_dropWhile]
  unfold skipelem
  dsimp only
  have hle := (dropWhile_suffix (l := path) (· = slash)).length_le
  cases hstart : path.dropWhile (· = slash) with
  | nil => rfl
  | cons c start =>
    have hc : c ≠ slash := by simpa using head_of_dropWhile hstart
    rw [hstart] at hle
    rw [if_neg (cons_ne_nil c start), components_cons hc]
    dsimp only
    have hafter : ((c :: start).dropWhile (· ≠ slash)).length ≤ start.length := by
      rw [dropWhile_cons_of_pos (by simpa using hc)]
      exact (dropWhile_suffix _).length_le
    generalize (c :: start).takeWhile (· ≠ slash) = elem
    generalize (c :: start).dropWhile (· ≠ slash) = after at hafter
    have hrest := (dropWhile_suffix (l := after) (· = slash)).length_le
    rw [components_dropWhile]
    refine ⟨?_, ?_, fun h => ?_, fun h => ?_⟩
    · congr 1
      split_ifs with h
      · rfl
      · rw [take_of_length_le le_rfl, take_of_length_le (by omega)]
    · rw [length_cons] at hle
      omega
    · rw [← components_dropWhile, h]
      rfl
    · rw [← components_dropWhile] at h
      cases hr : after.dropWhile (· = slash) with
      | nil => rfl
      | cons d l =>
        rw [hr, components_cons (by simpa using head_of_dropWhile hr)] at h
        cases h

theorem mem_skipelem (path : List UInt8) : ∀ rest name, skipelem path = some (rest, name) → ∀ c ∈ rest, c ∈ path := by
  intro rest name h c hc
  unfold skipelem at h
  dsimp only at h
  split_ifs at h
  all_goals
    simp only [Option.some.injEq, Prod.mk.injEq] at h
    obtain ⟨rfl, -⟩ := h
    exact (dropWhile_suffix _).mem ((dropWhile_suffix _).mem ((dropWhile_suffix _).mem hc))

/-! ### Strings in memory -/

/-- `while (P(*p)) p++`, in memory `mem`; `none` if a read is out of bounds. -/
def scan (mem : List UInt8) (P : UInt8 → Bool) : ℕ → ℕ → Option ℕ
  | 0, _ => none
  | fuel + 1, p => do
    let c ← mem[p]?
    if P c then scan mem P fuel (p + 1) else some p

/-- `strncpy` of `n` bytes from `t` on: what it stores. -/
def strncpyAt (mem : List UInt8) : ℕ → ℕ → Option (List UInt8)
  | 0, _ => some []
  | n + 1, t => do
    let c ← mem[t]?
    if c = 0 then some (List.replicate (n + 1) 0) else (c :: ·) <$> strncpyAt mem n (t + 1)

/-- `skipelem` of the string at `path`: the address it returns, and the name it stores; `none` for `0`. -/
def skipelemAt (mem : List UInt8) (path : ℕ) : Option (Option (ℕ × List UInt8)) := do
  let c ← mem[path]?
  if c = 0 then return none
  let start ← scan mem (· = slash) mem.length path
  let c ← mem[start]?
  if c = 0 then return none
  let stop ← scan mem (fun c => c ≠ slash ∧ c ≠ 0) mem.length start
  let len := if DIRSIZ ≤ stop - start then DIRSIZ - 1 else stop - start
  let name ← strncpyAt mem len start
  let stop ← scan mem (· = slash) mem.length stop
  return some (stop, name)

/-- The names that the calls of `skipelem` in the loop of `namex` store, at most `fuel` of them. -/
def elemsAt (mem : List UInt8) : ℕ → ℕ → Option (List (List UInt8))
  | 0, _ => none
  | fuel + 1, path => do
    match ← skipelemAt mem path with
    | none => return []
    | some (path, name) => (name :: ·) <$> elemsAt mem fuel path

/-- The string at `p` is `l`, and memory ends behind its terminator. -/
def StrAt (mem : List UInt8) (p : ℕ) (l : List UInt8) : Prop := mem.drop p = l ++ [0]

namespace StrAt

variable {mem l : List UInt8} {p fuel : ℕ} {P : UInt8 → Bool}

section

variable (h : StrAt mem p l)
include h

theorem read : mem[p]? = some (l.headD 0) := by
  have := congrArg List.head? h
  rw [List.head?_drop] at this
  rw [this]
  cases l <;> rfl

omit h in
theorem next {c : UInt8} (h : StrAt mem p (c :: l)) : StrAt mem (p + 1) l := by
  rw [StrAt, ← drop_drop, h]
  rfl

theorem length_eq (hp : p ≤ mem.length) : mem.length = p + l.length + 1 := by
  have := congrArg List.length h
  rw [length_drop, length_append] at this
  simp only [length_singleton] at this
  omega

theorem scan_eq (h0 : P 0 = false) (hfuel : l.length < fuel) :
    scan mem P fuel p = some (p + (l.takeWhile P).length) ∧ StrAt mem (p + (l.takeWhile P).length) (l.dropWhile P) := by
  induction fuel generalizing p l with
  | zero => omega
  | succ fuel ih =>
    rw [scan, h.read]
    cases l with
    | nil =>
      simp only [bind_eq_bind, bind_some, headD_nil, h0, Bool.false_eq_true, if_false]
      exact ⟨rfl, h⟩
    | cons c l =>
      simp only [bind_eq_bind, bind_some, headD_cons]
      by_cases hc : P c = true
      · have hlen : p + ((l.takeWhile P).length + 1) = p + 1 + (l.takeWhile P).length := by omega
        rw [if_pos hc, takeWhile_cons_of_pos hc, dropWhile_cons_of_pos hc, length_cons, hlen]
        exact ih h.next (by simpa using hfuel)
      · rw [if_neg hc, takeWhile_cons_of_neg hc, dropWhile_cons_of_neg hc]
        exact ⟨rfl, h⟩

theorem strncpyAt_eq (h0 : (0 : UInt8) ∉ l) {n : ℕ} (hn : n ≤ l.length) : strncpyAt mem n p = some (l.take n) := by
  induction n generalizing p l with
  | zero => rfl
  | succ n ih =>
    cases l with
    | nil => simp at hn
    | cons c l =>
      have hc : c ≠ 0 := fun e => h0 (e ▸ mem_cons_self)
      have hrest := ih h.next (fun hm => h0 (mem_cons_of_mem c hm)) (by simpa using hn)
      rw [strncpyAt, h.read]
      simp only [bind_eq_bind, bind_some, headD_cons, hc, if_false, hrest]
      rfl

omit h in
theorem while_ne_slash {l : List UInt8} (h0 : (0 : UInt8) ∉ l) :
    l.takeWhile (fun c => c ≠ slash ∧ c ≠ 0) = l.takeWhile (· ≠ slash) ∧
      l.dropWhile (fun c => c ≠ slash ∧ c ≠ 0) = l.dropWhile (· ≠ slash) := by
  induction l with
  | nil => exact ⟨rfl, rfl⟩
  | cons c l ih =>
    have hc : c ≠ 0 := fun e => h0 (e ▸ mem_cons_self)
    obtain ⟨ih1, ih2⟩ := ih fun hm => h0 (mem_cons_of_mem c hm)
    simp only [takeWhile_cons, dropWhile_cons, hc, ne_eq, not_false_eq_true, and_true] at ih1 ih2 ⊢
    rw [ih1, ih2]
    exact ⟨rfl, rfl⟩

theorem skipelemAt_spec (h0 : (0 : UInt8) ∉ l) (hp : p ≤ mem.length) :
    match skipelem l with
    | none => skipelemAt mem p = some none
    | some (rest, name) => ∃ p', skipelemAt mem p = some (some (p', name)) ∧ p' ≤ mem.length ∧ StrAt mem p' rest := by
  have hlen := h.length_eq hp
  obtain ⟨hs1, hat1⟩ := h.scan_eq (P := fun c => c = slash) (by decide) (show l.length < mem.length by omega)
  have hsum := congrArg List.length (takeWhile_append_dropWhile (p := fun c => decide (c = slash)) (l := l))
  rw [length_append] at hsum
  unfold skipelem skipelemAt
  rw [h.read]
  simp only [bind_eq_bind, bind_some, hs1, hat1.read]
  cases hl : l.dropWhile (fun c => c = slash) with
  | nil =>
    rw [if_pos rfl]
    split_ifs with h1 h2
    · rfl
    · rfl
    · exact absurd rfl h2
  | cons c l1 =>
    have h01 : (0 : UInt8) ∉ c :: l1 := fun hm => h0 ((dropWhile_suffix _).mem (hl ▸ hm))
    have hhead : l.headD 0 ≠ 0 := by
      cases l with
      | nil => cases hl
      | cons d l => exact fun e => h0 (by rw [← show d = 0 from e]; exact mem_cons_self)
    have hc : c ≠ 0 := fun e => h01 (e ▸ mem_cons_self)
    rw [hl] at hat1 hsum
    set start := p + (l.takeWhile fun c => c = slash).length with hstart
    obtain ⟨hs2, hat2⟩ := hat1.scan_eq (P := fun c => c ≠ slash ∧ c ≠ 0) (by decide) (show (c :: l1).length < mem.length by omega)
    obtain ⟨htake, hdrop⟩ := while_ne_slash h01
    rw [htake] at hs2 hat2
    rw [hdrop] at hat2
    have hsum2 := congrArg List.length (takeWhile_append_dropWhile (p := fun c => decide (c ≠ slash)) (l := c :: l1))
    rw [length_append] at hsum2
    set elem := (c :: l1).takeWhile (· ≠ slash) with helem
    set after := (c :: l1).dropWhile (· ≠ slash)
    obtain ⟨hs3, hat3⟩ := hat2.scan_eq (P := fun c => c = slash) (by decide) (show after.length < mem.length by omega)
    have hsum3 := congrArg List.length (takeWhile_append_dropWhile (p := fun c => decide (c = slash)) (l := after))
    rw [length_append] at hsum3
    have hname : ∀ len ≤ elem.length, strncpyAt mem len start = some (elem.take len) := by
      intro len hle
      have happ : (elem ++ after).take len = elem.take len := take_append_of_le_length hle
      rw [hat1.strncpyAt_eq h01 (by omega), ← happ, takeWhile_append_dropWhile]
    have hlen' : (if DIRSIZ ≤ elem.length then DIRSIZ - 1 else elem.length) ≤ elem.length := by
      split_ifs <;> omega
    rw [if_neg (cons_ne_nil c l1)]
    simp only [hhead, if_false, headD_cons, hc, hs2, bind_some, Nat.add_sub_cancel_left, hname _ hlen', hs3]
    exact ⟨_, rfl, by omega, hat3⟩

theorem elemsAt_eq (h0 : (0 : UInt8) ∉ l) (hp : p ≤ mem.length) (hfuel : l.length < fuel) :
    elemsAt mem fuel p = some (components l) := by
  induction fuel generalizing p l with
  | zero => omega
  | succ fuel ih =>
    have hat := h.skipelemAt_spec h0 hp
    have hspec := skipelem_spec l
    have hmem := mem_skipelem l
    rw [elemsAt]
    cases hs : skipelem l with
    | none =>
      rw [hs] at hat hspec
      simp only [hat, hspec]
      rfl
    | some r =>
      obtain ⟨rest, name⟩ := r
      rw [hs] at hat hspec
      obtain ⟨p', hp', hle, hrest⟩ := hat
      obtain ⟨hc, hlt, -⟩ := hspec
      simp only [hp', hc, bind_eq_bind, bind_some]
      rw [ih hrest (fun hm => h0 (hmem rest name hs 0 hm)) hle (by omega)]
      rfl

end

end StrAt

/-! ### Walks in a tree -/

section Tree

variable (T : ℕ → Option Node)

/-- The directory at `i`. -/
def dirAt (i : ℕ) : Option Node := (T i).filter (·.type = T_DIR)

/-- A name is looked up in the directory at `i`. -/
def stepTo (i : ℕ) (name : List UInt8) : Option ℕ := (dirAt T i).bind fun n => (n.lookup name).map Prod.fst

def walk (i : ℕ) (cs : List (List UInt8)) : Option ℕ := cs.foldlM (stepTo T) i

/-- The directory that all names but the last lead to, and the last name. -/
def walkParent (i : ℕ) (cs : List (List UInt8)) : Option (ℕ × List UInt8) := do
  let name ← cs.getLast?
  let j ← walk T i cs.dropLast
  let _ ← dirAt T j
  return (j, name)

/-- What `namex` returns. -/
def walkTo (nameiparent : Bool) (i : ℕ) (cs : List (List UInt8)) : Option (ℕ × List UInt8) :=
  if nameiparent then walkParent T i cs else (walk T i cs).map (·, [])

variable {T} {i : ℕ} {name : List UInt8} {cs : List (List UInt8)}

theorem walkTo_cons (nameiparent : Bool) (h : nameiparent = true → cs ≠ []) :
    walkTo T nameiparent i (name :: cs) = (stepTo T i name).bind fun j => walkTo T nameiparent j cs := by
  cases nameiparent with
  | false =>
    simp only [walkTo, Bool.false_eq_true, if_false, walk, foldlM_cons]
    cases stepTo T i name <;> rfl
  | true =>
    obtain ⟨c, cs, rfl⟩ := exists_cons_of_ne_nil (h rfl)
    simp only [walkTo, if_true, walkParent, walk, List.getLast?_cons_cons, dropLast_cons_cons, foldlM_cons]
    cases stepTo T i name with
    | none => cases (c :: cs).getLast? <;> rfl
    | some j => rfl

variable {n : Node}

theorem dirAt_of_type (hn : T i = some n) (h : n.type = T_DIR) : dirAt T i = some n := by
  rw [dirAt, hn, filter_some_pos (by simpa using h)]

theorem dirAt_of_not_type (hn : T i = some n) (h : n.type ≠ T_DIR) : dirAt T i = none := by
  rw [dirAt, hn, filter_some_neg (by simpa using h)]

theorem dirAt_some (h : dirAt T i = some n) : T i = some n ∧ n.type = T_DIR := by
  obtain ⟨hn, ht⟩ := filter_eq_some_iff.mp h
  exact ⟨hn, by simpa using ht⟩

theorem walkTo_of_not_dir (nameiparent : Bool) (h : dirAt T i = none) : walkTo T nameiparent i (name :: cs) = none := by
  have hstep : stepTo T i name = none := by
    rw [stepTo, h]
    rfl
  by_cases hnp : nameiparent = true → cs ≠ []
  · rw [walkTo_cons nameiparent hnp, hstep]
    rfl
  · obtain ⟨rfl, hcs⟩ := Classical.not_imp.mp hnp
    obtain rfl := not_not.mp hcs
    simp only [walkTo, if_true, walkParent, List.getLast?_singleton, dropLast_singleton, walk, foldlM_nil]
    show (dirAt T i).bind _ = _
    rw [h]
    rfl

end Tree

/-! ### namex -/

/-- The directories are consistent: an entry is for an inode that is in use, and that has a link or was in use before the call. -/
structure Linked (total : Prop) (sb : Superblock) (D : Disk) (s₀ : FS) : Prop where
  whole : ∀ i n, tree sb D none i = some n → n.type = T_DIR → IsDir n
  target : ∀ i n name j k, dirAt (tree sb D none) i = some n → n.lookup name = some (j, k) → j < sb.ninodes ∧
    (total → tree sb D none j ≠ none) ∧ ((dinodeAt D j).nlink ≠ 0 ∨ ∃ ip, 0 < (s₀.inode ip).ref ∧ (s₀.inode ip).inum = j)
  root : ROOTINO < sb.ninodes ∧ (total → tree sb D none ROOTINO ≠ none) ∧ (dinodeAt D ROOTINO).nlink ≠ 0

variable {M : Mode} {pid : ℕ} {sb : Superblock} {X : Finset ℕ} {u : Bool} {K : Finset ℕ} {D : Disk} {s₀ s t : FS}
  {L : List (InodePtr × ℕ)} {B : Finset InodePtr} {ip : InodePtr} {i j fuel : ℕ} {path : List UInt8}

theorem Doing.has_of_used (h : Doing M sb X u K D s₀ ((ip, i) :: L) B t) (hused : ∃ jp, 0 < (s₀.inode jp).ref ∧ (s₀.inode jp).inum = i) :
    Has s₀ L ip i := by
  obtain ⟨jp, hpos, hin⟩ := hused
  have hip : Has s₀ ((ip, i) :: L) ip i := .inl mem_cons_self
  have hjp : Has s₀ ((ip, i) :: L) jp i := .inr ⟨hpos, hin⟩
  obtain rfl := h.cached.uniq ip jp (h.pos_of_has hip) (h.pos_of_has hjp) ((h.inum_of_has hip).trans (h.inum_of_has hjp).symm)
  exact .inr ⟨hpos, hin⟩

theorem Has.cons (h : Has s₀ L ip i) (p : InodePtr × ℕ) : Has s₀ (p :: L) ip i := h.imp (mem_cons_of_mem p) id

theorem erase_second (a b : InodePtr × ℕ) (L : List (InodePtr × ℕ)) : (a :: b :: L).erase b = a :: L := by
  by_cases hab : a = b
  · rw [hab, erase_cons_head]
  · rw [erase_cons_tail (by simpa using hab), erase_cons_head]

/-- The result of `namex`: nothing, or a new reference. -/
def Found (M : Mode) (sb : Superblock) (X : Finset ℕ) (u : Bool) (K : Finset ℕ) (D : Disk) (s₀ : FS) (L : List (InodePtr × ℕ))
    (w : Option (ℕ × List UInt8)) (r : Option (InodePtr × List UInt8)) (t : FS) : Prop :=
  match w with
  | none => r = none ∧ Doing M sb X u K D s₀ L ∅ t
  | some (j, name) => ∃ ip, r = some (ip, name) ∧ Doing M sb X u K D s₀ ((ip, j) :: L) ∅ t

theorem Doing.runs_namexLoop (hl : Linked M.total sb D s₀) (nameiparent : Bool) (hfuel : path.length < fuel)
    (h : Doing M sb X u K D s₀ ((ip, i) :: L) ∅ t) (hi : i < sb.ninodes) (hex : M.total → tree sb D none i ≠ none)
    (hkeep : (dinodeAt D i).nlink ≠ 0 ∨ Has s₀ L ip i) (hspare : M.total → L.length + 1 < (spare s₀).card) :
    (M.guard pid).Runs (namexLoop nameiparent fuel ip path)
      (Found M sb X u K D s₀ L (walkTo (tree sb D none) nameiparent i (components path))) t := by
  induction fuel generalizing path ip i t with
  | zero => omega
  | succ fuel ih =>
    have hspec := skipelem_spec path
    have hip : Has s₀ ((ip, i) :: L) ip i := .inl mem_cons_self
    have herase : ((ip, i) :: L).erase (ip, i) = L := erase_cons_head ..
    have hempty : (insert ip (∅ : Finset InodePtr)).erase ip = ∅ := Finset.erase_insert (Finset.notMem_empty ip)
    rw [namexLoop]
    cases hs : skipelem path with
    | none =>
      rw [hs] at hspec
      rw [hspec]
      cases nameiparent with
      | true =>
        refine (h.runs_inodePut mem_cons_self (fun hb => absurd hb (Finset.notMem_empty ip))
          (hkeep.imp_right fun hk => .inr (herase.symm ▸ hk))).bind fun _ t h => ?_
        rw [herase] at h
        exact ⟨rfl, h⟩
      | false => exact ⟨ip, rfl, h⟩
    | some r =>
      obtain ⟨rest, name⟩ := r
      rw [hs] at hspec
      obtain ⟨hcs, hlt, hlast⟩ := hspec
      rw [hcs]
      refine (h.runs_inodeLock hip hi hex fun _ => Finset.notMem_empty ip).bind ?_
      rintro _ t ⟨⟨hn, -⟩, h⟩
      obtain ⟨n, hn⟩ := ne_none_iff_exists'.mp hn
      refine (h.runs_size hip (Finset.mem_insert_self ..) hn).bind ?_
      rintro v t ⟨⟨-, htype, -⟩, h⟩
      rw [htype]
      have hput : ∀ t, Doing M sb X u K D s₀ ((ip, i) :: L) (insert ip ∅) t →
          (M.guard pid).Runs (inodeUnlockput ip >>= fun _ => pure none)
            (fun (r : Option (InodePtr × List UInt8)) t => r = none ∧ Doing M sb X u K D s₀ L ∅ t) t := by
        exact fun t h => (h.runs_giveBack (Finset.notMem_empty ip) hkeep).bind fun _ t h => ⟨rfl, h⟩
      by_cases hdir : n.type = T_DIR
      · have hat := dirAt_of_type hn hdir
        rw [if_neg (not_not.mpr hdir)]
        by_cases hstop : nameiparent = true ∧ rest = []
        · -- the directory of the last name
          rw [if_pos hstop]
          obtain ⟨rfl, rfl⟩ := hstop
          have hw : walkTo (tree sb D none) true i (name :: components []) = some (i, name) := by
            show (dirAt (tree sb D none) i).bind _ = _
            rw [hat]
            rfl
          rw [hw]
          refine (h.runs_inodeUnlock (Finset.mem_insert_self ..)).bind fun _ t h => ?_
          rw [hempty] at h
          exact ⟨ip, rfl, h⟩
        · rw [if_neg hstop, walkTo_cons nameiparent fun hnp hnil => hstop ⟨hnp, hlast.mpr hnil⟩]
          refine (h.runs_dirLookup name hip (Finset.mem_insert_self ..) hn (hl.whole i n hn hdir) fun hm _ => hspare hm).bind
            fun r t hr => ?_
          have hstep : stepTo (tree sb D none) i name = (n.lookup name).map Prod.fst := by
            rw [stepTo, hat]
            rfl
          rw [hstep]
          cases hf : n.lookup name with
          | none =>
            rw [hf] at hr
            obtain ⟨rfl, h⟩ := hr
            exact hput t h
          | some p =>
            obtain ⟨j, k⟩ := p
            rw [hf] at hr
            obtain ⟨jp, rfl, -, h⟩ := hr
            refine (h.runs_inodeUnlockput (mem_cons_of_mem _ mem_cons_self) (Finset.mem_insert_self ..) ?_).bind fun _ t h => ?_
            · rw [erase_second]
              exact hkeep.imp_right fun hk => hk.cons _
            · rw [erase_second, hempty] at h
              obtain ⟨hj, hjex, hjkeep⟩ := hl.target i n name j k hat hf
              exact ih (by omega) h hj hjex (hjkeep.imp_right h.has_of_used)
      · rw [if_pos hdir, walkTo_of_not_dir nameiparent (dirAt_of_not_type hn hdir)]
        exact hput t h

/-- The working directory of `pid` is inode `i`. -/
structure Cwd (total : Prop) (sb : Superblock) (D : Disk) (s : FS) (pid i : ℕ) : Prop where
  entry : ∃ ip, s.cwd pid = some ip ∧ 0 < (s.inode ip).ref ∧ (s.inode ip).inum = i
  lt : i < sb.ninodes
  used : total → tree sb D none i ≠ none

/-- Inode `i` can be walked to: it is in use, and it has a link or was in use before the call. -/
structure Kept (total : Prop) (sb : Superblock) (D : Disk) (s₀ : FS) (i : ℕ) : Prop where
  lt : i < sb.ninodes
  used : total → tree sb D none i ≠ none
  keep : (dinodeAt D i).nlink ≠ 0 ∨ ∃ ip, 0 < (s₀.inode ip).ref ∧ (s₀.inode ip).inum = i

theorem Cwd.kept (h : Cwd total sb D s pid i) : Kept total sb D s i :=
  ⟨h.lt, h.used, .inr (h.entry.imp fun _ hip => hip.2)⟩

theorem Linked.walk {cs : List (List UInt8)} (hl : Linked total sb D s) (hi : Kept total sb D s i)
    (hw : walk (tree sb D none) i cs = some j) : Kept total sb D s j := by
  induction cs generalizing i with
  | nil =>
    obtain rfl : i = j := Option.some.inj hw
    exact hi
  | cons name cs ih =>
    obtain ⟨k, hk, hw⟩ := bind_eq_some_iff.mp hw
    obtain ⟨n, hn, hk⟩ := bind_eq_some_iff.mp hk
    obtain ⟨⟨k', x⟩, hf, rfl⟩ := map_eq_some_iff.mp hk
    obtain ⟨h1, h2, h3⟩ := hl.target i n name k' x hn hf
    exact ih ⟨h1, h2, h3⟩ hw

def startAt (cwd : ℕ) (path : List UInt8) : ℕ := if path.head? = some slash then ROOTINO else cwd

theorem Linked.start (hl : Linked total sb D s) (hi : path.head? ≠ some slash → Kept total sb D s i) :
    Kept total sb D s (startAt i path) := by
  unfold startAt
  split_ifs with hroot
  · exact ⟨hl.root.1, hl.root.2.1, .inl hl.root.2.2⟩
  · exact hi hroot

theorem Doing.runs_cwd (h : Doing M sb X u K D s₀ L B t) :
    (M.guard pid).Runs (Code.op .cwd) (fun r t => r = s₀.cwd pid ∧ Doing M sb X u K D s₀ L B t) t := by
  refine fun _ => ⟨trivial, ?_⟩
  show wp (do return (← get).cwd pid : Prog FS FsStop _) _ _ t
  rw [wp_bind, wp_get, wp_pure]
  exact ⟨congrFun h.cwd pid, h⟩

theorem Doing.runs_getCwd (h : Doing M sb X u K D s₀ L B t) (hcwd : s₀.cwd pid = some ip) :
    (M.guard pid).Runs getCwd (fun r t => r = ip ∧ Doing M sb X u K D s₀ L B t) t := by
  unfold getCwd
  refine h.runs_cwd.bind ?_
  rintro _ t ⟨rfl, h⟩
  rw [hcwd]
  exact ⟨rfl, h⟩

theorem Cwd.after {D' : Disk} (hc : Cwd total sb D s pid i) (h : Doing M sb X u K D' s L B t)
    (hused : total → tree sb D' none i ≠ none) : Cwd total sb D' t pid i := by
  obtain ⟨ip, hip, hpos, hin⟩ := hc.entry
  have hhas : Has s L ip i := .inr ⟨hpos, hin⟩
  exact ⟨⟨ip, (congrFun h.cwd pid).trans hip, h.pos_of_has hhas, h.inum_of_has hhas⟩, hc.lt, hused⟩

theorem Doing.runs_setCwd (h : Doing M sb X u K D s₀ L B t) (ip : InodePtr) :
    (M.guard pid).Runs (Code.op (.setCwd ip)) (fun _ t' => (t'.cwd pid = some ip ∧ t'.inode = t.inode) ∧
      Doing M sb X u K D t' [] B t') t := by
  refine fun _ => ⟨trivial, ?_⟩
  show wp (setCwd pid ip) _ _ t
  unfold setCwd
  rw [wp_modify]
  exact ⟨⟨Function.update_self .., rfl⟩, h.shows, rfl, h.lays, h.rebase.cached, rfl, rfl, rfl, rfl⟩

theorem Doing.runs_namex (hl : Linked M.total sb D s₀) (nameiparent : Bool) (path : List UInt8) (h : Doing M sb X u K D s₀ L ∅ t)
    (hcwd : path.head? ≠ some slash → Cwd M.total sb D s₀ pid i) (hspare : M.total → L.length + 1 < (spare s₀).card) :
    (M.guard pid).Runs (namex path nameiparent)
      (Found M sb X u K D s₀ L (walkTo (tree sb D none) nameiparent (startAt i path) (components path))) t := by
  unfold namex startAt
  split_ifs with hroot
  · have hget : (M.guard pid).Runs (Code.op .igetRoot) _ t :=
      Doing.runs_inodeGet rfl trivial h fun hm => (Nat.le_succ _).trans_lt (hspare hm)
    refine hget.bind fun ip t h => ?_
    obtain ⟨hlt, hex, hlink⟩ := hl.root
    exact h.2.runs_namexLoop hl nameiparent (Nat.lt_succ_self _) hlt hex (.inl hlink) hspare
  · replace hcwd := hcwd hroot
    obtain ⟨ip, hip, hpos, hin⟩ := hcwd.entry
    have hhas : Has s₀ L ip i := .inr ⟨hpos, hin⟩
    refine (h.runs_getCwd hip).bind ?_
    rintro _ t ⟨rfl, h⟩
    refine (h.runs_idup hhas).bind fun _ t h => ?_
    exact h.runs_namexLoop hl nameiparent (Nat.lt_succ_self _) hcwd.lt hcwd.used (.inr hhas) hspare

theorem Doing.runs_namei (hl : Linked M.total sb D s₀) (path : List UInt8) (h : Doing M sb X u K D s₀ L ∅ t)
    (hcwd : path.head? ≠ some slash → Cwd M.total sb D s₀ pid i) (hspare : M.total → L.length + 1 < (spare s₀).card) :
    (M.guard pid).Runs (namei path) (fun r t => match walk (tree sb D none) (startAt i path) (components path) with
      | none => r = none ∧ Doing M sb X u K D s₀ L ∅ t
      | some j => ∃ ip, r = some ip ∧ Doing M sb X u K D s₀ ((ip, j) :: L) ∅ t) t := by
  unfold namei
  refine (h.runs_namex hl false path hcwd hspare).bind fun r t hr => ?_
  rw [walkTo, if_neg Bool.false_ne_true] at hr
  cases hw : walk (tree sb D none) (startAt i path) (components path) with
  | none =>
    rw [hw] at hr
    obtain ⟨rfl, h⟩ := hr
    exact ⟨rfl, h⟩
  | some j =>
    rw [hw] at hr
    obtain ⟨ip, rfl, h⟩ := hr
    exact ⟨ip, rfl, h⟩

theorem Doing.refs_single (h : Doing M sb X u K D s₀ [(ip, i)] B t) (jp : InodePtr) :
    (t.inode jp).ref = (s₀.inode jp).ref + if jp = ip then 1 else 0 := by
  rw [h.cached.refs jp]
  congr 1
  by_cases hj : jp = ip
  · rw [if_pos hj, hj]
    simp
  · rw [if_neg hj]
    simp [Ne.symm hj]

theorem Found.refs {w : Option (ℕ × List UInt8)} {r : Option (InodePtr × List UInt8)} : Found M sb X u K D s₀ [] w r t →
    Doing M sb X u K D t [] ∅ t ∧ match w with
      | none => r = none ∧ ∀ jp, (t.inode jp).ref = (s₀.inode jp).ref
      | some (j, name) => ∃ ip, r = some (ip, name) ∧ (t.inode ip).inum = j ∧
          ∀ jp, (t.inode jp).ref = (s₀.inode jp).ref + if jp = ip then 1 else 0 := by
  intro h
  cases w with
  | none =>
    obtain ⟨rfl, h⟩ := h
    exact ⟨h.rebase, rfl, fun jp => (h.cached.refs jp).trans (add_zero _)⟩
  | some p =>
    obtain ⟨ip, rfl, h⟩ := h
    exact ⟨h.rebase, ip, rfl, h.inum_of_has (.inl mem_cons_self), h.refs_single⟩

/-- `skipelem` gives the names of the path one by one, and reads nothing behind its end. `namex` returns the inode that they lead to
from the root or the working directory, or the directory before the last name and that name; `0` if there is none. It leaves one
reference, on the inode that it returns. -/
theorem path_walk (pid : ℕ) {path : List UInt8} (hpath : (0 : UInt8) ∉ path) {lim : ℕ} (hs : Doing (full lim) sb X u K D s [] ∅ s)
    (hl : Linked True sb D s) (hcwd : Cwd True sb D s pid i) (hspare : 2 ≤ (spare s).card) :
    elemsAt (path ++ [0]) (path.length + 1) 0 = some (components path) ∧
      (∃ r t, ((namex path false).run (sem pid)).run s = (.ok r, t) ∧ Doing (full lim) sb X u K D t [] ∅ t ∧
        match walk (tree sb D none) (startAt i path) (components path) with
        | none => r = none ∧ ∀ jp, (t.inode jp).ref = (s.inode jp).ref
        | some j => ∃ ip, r = some (ip, []) ∧ (t.inode ip).inum = j ∧
            ∀ jp, (t.inode jp).ref = (s.inode jp).ref + if jp = ip then 1 else 0) ∧
      ∃ r t, ((namex path true).run (sem pid)).run s = (.ok r, t) ∧ Doing (full lim) sb X u K D t [] ∅ t ∧
        match walkParent (tree sb D none) (startAt i path) (components path) with
        | none => r = none ∧ ∀ jp, (t.inode jp).ref = (s.inode jp).ref
        | some (j, name) => ∃ ip, r = some (ip, name) ∧ (t.inode ip).inum = j ∧
            ∀ jp, (t.inode jp).ref = (s.inode jp).ref + if jp = ip then 1 else 0 := by
  have hat : StrAt (path ++ [0]) 0 path := rfl
  refine ⟨hat.elemsAt_eq hpath (Nat.zero_le _) (Nat.lt_succ_self _), ?_, ?_⟩
  · obtain ⟨r, t, hrun, hr⟩ := run_full lim pid (hs.runs_namex hl false path (fun _ => hcwd) fun _ => hspare)
    refine ⟨r, t, hrun, ?_⟩
    unfold walkTo at hr
    cases hf : walk (tree sb D none) (startAt i path) (components path) with
    | none =>
      rw [hf] at hr
      exact hr.refs
    | some j =>
      rw [hf] at hr
      exact hr.refs
  · obtain ⟨r, t, hrun, hr⟩ := run_full lim pid (hs.runs_namex hl true path (fun _ => hcwd) fun _ => hspare)
    exact ⟨r, t, hrun, hr.refs⟩

/-! ### The small disk -/

open scoped Fs.Sizes in
/-- The small disk, with the root as working directory. The other entries of the inode cache are as `v` says. -/
def smallCwd (v : InodePtr → Inode) : FS :=
  { FS.ready smallDisk false with
    inode := fun ip => if ip = 0 then ⟨1, 1, false, true, smallRoot⟩ else v ip
    cwd := fun _ => some 0 }

theorem doing_smallCwd {v : InodePtr → Inode} (hv : ∀ ip, 0 ≤ (v ip).ref ∧ (v ip).busy = false ∧ (v ip).valid = false)
    (huniq : ∀ ip jp, 0 < (v ip).ref → (v ip).inum ≠ 1 ∧ (0 < (v jp).ref → (v ip).inum = (v jp).inum → ip = jp)) :
    Doing (full 1014) mkfsSb ∅ false ∅ smallDisk (smallCwd v) [] ∅ (smallCwd v) :=
  ⟨shows_smallDisk, rfl, lays_smallDisk, cached_smallRoot false hv huniq, rfl, rfl, rfl, rfl⟩

theorem dirAt_smallDisk {i : ℕ} {n : Node} (h : dirAt (tree mkfsSb smallDisk none) i = some n) : i = 1 ∧ n = smallRootNode := by
  obtain ⟨hn, ht⟩ := dirAt_some h
  obtain ⟨hi, hty, -⟩ := tree_some hn
  by_cases h1 : i = 1
  · rw [h1, tree_smallRoot] at hn
    exact ⟨h1, (Option.some.inj hn).symm⟩
  · by_cases h2 : i = 2
    · rw [h2, tree_smallFile] at hn
      rw [← Option.some.inj hn] at ht
      exact absurd ht (by decide)
    · exact absurd (type_smallDisk hi h1 h2) hty

theorem linked_smallDisk (total : Prop) (s : FS) : Linked total mkfsSb smallDisk s where
  whole i n hn ht := by
    obtain ⟨-, rfl⟩ := dirAt_smallDisk (dirAt_of_type hn ht)
    exact isMap_smallRoot.toIsDir
  target i n name j k hn hf := by
    obtain ⟨-, rfl⟩ := dirAt_smallDisk hn
    have hj : j = 1 ∨ j = 2 := by
      rw [Node.lookup, Slots.find_eq_some isMap_smallRoot.names] at hf
      have hmem := mem_of_getElem? hf
      rw [show slotsOf smallRootNode.data = _ from slots_smallRoot] at hmem
      simp at hmem
      omega
    rcases hj with rfl | rfl
    · exact ⟨by decide, fun _ => by rw [tree_smallRoot]; exact Option.some_ne_none _, by rw [dinodeAt_smallDisk_root]; exact .inl (by decide)⟩
    · exact ⟨by decide, fun _ => by rw [tree_smallFile]; exact Option.some_ne_none _, by rw [dinodeAt_smallDisk_file]; exact .inl (by decide)⟩
  root := ⟨by decide, fun _ => by rw [tree_smallRoot]; exact Option.some_ne_none _, by rw [dinodeAt_smallDisk_root]; decide⟩

theorem cwd_smallCwd (total : Prop) (v : InodePtr → Inode) (pid : ℕ) : Cwd total mkfsSb smallDisk (smallCwd v) pid 1 where
  entry := ⟨0, rfl, Int.one_pos, rfl⟩
  lt := by decide
  used _ := by rw [tree_smallRoot]; nofun

theorem doing_smallCwd_vacant : Doing (full 1014) mkfsSb ∅ false ∅ smallDisk (smallCwd vacant) [] ∅ (smallCwd vacant) :=
  doing_smallCwd (fun _ => ⟨le_rfl, rfl, rfl⟩) fun _ _ hip => absurd hip (lt_irrefl 0)

theorem walk_smallDisk : walk (tree mkfsSb smallDisk none) 1 (components [102]) = some 2 := by
  have hstep : stepTo (tree mkfsSb smallDisk none) 1 [102] = some 2 := by
    rw [stepTo, dirAt_of_type tree_smallRoot rfl]
    show ((Slots.find (nameKey [102]) (slotsOf smallRootNode.data)).map Prod.fst) = some 2
    rw [show slotsOf smallRootNode.data = _ from slots_smallRoot]
    rfl
  rw [show components [102] = [[102]] by decide]
  simp [walk, hstep]

theorem path_walk_small : ∃ ip t, ((namex [102] false).run (sem 2)).run (smallCwd vacant) = (.ok (some (ip, [])), t) ∧ (t.inode ip).inum = 2 := by
  obtain ⟨-, ⟨r, t, hrun, -, hr⟩, -⟩ := path_walk 2 (show (0 : UInt8) ∉ [102] by decide) doing_smallCwd_vacant (linked_smallDisk True _)
    (cwd_smallCwd True vacant 2) (by decide)
  rw [show startAt 1 [102] = 1 from rfl, walk_smallDisk] at hr
  obtain ⟨ip, rfl, hin, -⟩ := hr
  exact ⟨ip, t, hrun, hin⟩

/-- The path `f` leads to a file, but there is no entry in the inode cache for it. -/
theorem path_walk_crowded :
    Doing (full 1014) mkfsSb ∅ false ∅ smallDisk (smallCwd crowd) [] ∅ (smallCwd crowd) ∧ Linked True mkfsSb smallDisk (smallCwd crowd) ∧
      Cwd True mkfsSb smallDisk (smallCwd crowd) 2 1 ∧ walk (tree mkfsSb smallDisk none) 1 (components [102]) = some 2 ∧
      (((namex [102] false).run (sem 2)).run (smallCwd crowd)).1 matches .error .inodeGet := by
  refine ⟨doing_smallCwd (fun _ => ⟨Int.one_nonneg, rfl, rfl⟩) fun ip jp _ => ⟨?_, fun _ e => ?_⟩, linked_smallDisk True _,
    cwd_smallCwd True crowd 2, walk_smallDisk, ?_⟩
  · show 10 + ip.val ≠ 1
    omega
  · exact Fin.ext (Nat.add_left_cancel e)
  · decide +kernel

end MCertiKOS.FileSystem.Fs
