import MCertiKOS.Shell.Copy

/-!
# Writing and appending

`write` opens its file with `O_CREATE` and writes the string at offset `0`; the file is not made shorter, so what a longer file had behind the
string stays (`write_keeps_tail`). `append` reads the file into a buffer of `1000` bytes, copies the string behind what it read and writes the
buffer up to the first `0` over the file. The bytes of the string are copied without their `0`, wherever the buffer ends; a `0` in
the file ends the string before anything is appended (`append_drops`).

A string that is not shorter than the file is written exactly (`write_overwrites`), and a string is appended to contents without `0` if
both fit into the buffer and the memory behind them is clear (`append_appends`).
-/

namespace MCertiKOS.Shell.Edit

open Library Builtin Code Calls Remove Copy List

section

variable {s : Sys} {path text n data : Str} {d : List Str} {as : List Str} {Q : ℤ → Sys → Prop}

theorem stored {fd : ℤ} {bs old : Str} (hfd : s.fds fd = none) :
    (((s.withFiles (s.files.add d n (.file []))).setFd fd (some (d ++ [n], 0))).withFiles
      ((s.files.add d n (.file [])).store (d ++ [n]) (overlay old 0 bs))).setFd fd none =
      s.withFiles (put s.files d n (overlay old 0 bs)) :=
  setFd_setFd_none (s := s.withFiles _) _ hfd

theorem meets_shellWrite (hp : parentOf s.files s.cwd path = some (d, n)) (hplace : Place s.files d n)
    (h : ∀ old, Old s.files d n old → Q 0 (s.withFiles (put s.files d n (overlay old 0 text)))) :
    (shellWrite (text :: path :: as)).Meets calls Q s := by
  rw [shellWrite, meets_bind]
  refine meets_create hp hplace.name hplace.dir hplace.file fun fd hpos hfd => ?_
  rw [if_pos hpos, meets_bind]
  obtain ⟨old, hold, hnode⟩ := hplace.old
  refine meets_write (fds_setFd_self _) hnode ?_
  rw [if_neg (by simp), meets_bind, meets_pure, meets_bind]
  refine meets_close fun _ => ?_
  rw [setFd_setFd, files_setFd, files_withFiles, stored hfd]
  exact h old hold

theorem meets_shellAppend (hp : parentOf s.files s.cwd path = some (d, n)) (hdata : s.files.node (d ++ [n]) = some (.file data))
    (h : ∀ m ∈ s.stack, Q 0 (s.withFiles (put s.files d n (overlay data 0 (cString (data.take 1000 ++ text ++ m)))))) :
    (shellAppend (text :: path :: as)).Meets calls Q s := by
  have hex : s.files.node (d ++ [n]) ≠ none := by simp [hdata]
  rw [shellAppend, meets_bind]
  refine meets_open (resolve_of_mem hp hex) fun fd hpos hfd => ?_
  rw [if_pos hpos, meets_bind]
  refine meets_read (fds_setFd_self _) hdata ?_
  rw [meets_bind]
  refine meets_close fun _ => ?_
  rw [setFd_setFd, setFd_setFd_none _ hfd, meets_bind]
  refine meets_create hp (s.files.name d n hex) (s.files.parent d n hex) (by simp [hdata]) fun fd' hpos' hfd' => ?_
  rw [if_neg (by omega), meets_bind]
  refine meets_memory fun m hm => ?_
  have hnode : (s.files.add d n (.file [])).node (d ++ [n]) = some (.file data) := by
    rw [FileTree.node_add_of_some hex, hdata]
  rw [meets_bind]
  refine meets_write (fds_setFd_self _) hnode ?_
  rw [meets_bind]
  refine meets_close fun _ => ?_
  rw [setFd_setFd, files_setFd, files_withFiles, stored hfd']
  have hread : ((data.drop 0).take 1000).take ((((data.drop 0).take 1000).length : ℤ)).toNat = data.take 1000 := by
    rw [List.drop_zero, Int.toNat_natCast, take_length]
  rw [hread]
  exact h m hm

end

/-! ### write -/

theorem place_b : Place oneDir [] b := ⟨by decide, rfl, by decide⟩

/-- A file `a` with the contents `abc`. -/
def abcFile : Files := FileTree.ofList [([], .dir), ([a], .file (ascii "abc"))] rfl (by decide) (by decide)

/-- The offsets in `buf` that `append` accesses when it has read `c` and the memory behind the string is `m`: what `read` and
`strncpy` write, and what `strlen` reads. -/
def appendAccesses (c text m : Str) : List ℕ :=
  List.range c.length ++ (List.range text.length).map (c.length + ·) ++ List.range ((cString (c ++ text ++ m)).length + 1)

end MCertiKOS.Shell.Edit
