import CSystems.Lib.File

open clib.file

namespace csystems.low_level_task

/-- The size of the buffers of both functions. -/
def BUFFER_SIZE : Nat := 4096

/-- What the two functions print; `mismatch` carries the offset it prints. -/
inductive message_t
  | open_source
  | open_destination
  | write_error
  | read_error
  | verifying
  | open_verification
  | mismatch (offset : Nat)
  | sizes_differ
  | identical
  deriving DecidableEq, Repr

def message_t.text : message_t → String
  | open_source => "Failed to open source file"
  | open_destination => "Failed to open destination file"
  | write_error => "Write error"
  | read_error => "Read error"
  | verifying => "Verifying byte accuracy\n"
  | open_verification => "Failed to open files for verification"
  | mismatch offset => "Mismatch detected at byte offset " ++ toString offset ++ "\n"
  | sizes_differ => "File sizes differ\n"
  | identical => "Files are identical — byte accuracy verified.\n"

/-- What the system calls of one `copyfiles` return: whether each file opens, whether the
`i`-th read fails, and how many bytes the `i`-th write takes at most, `none` if it fails. -/
structure io_t where
  source_opens : Bool
  destination_opens : Bool
  read_fails : Nat → Bool
  write_takes : Nat → Option Nat

theorem length_read_pos {file : File} (h : (read file BUFFER_SIZE).2.length ≠ 0) :
    file.bytes.length - (read file BUFFER_SIZE).1.pos < file.bytes.length - file.pos := by
  have hlen := length_slice file.bytes file.pos BUFFER_SIZE
  simp only [clib.file.read] at h ⊢
  omega

/-- The loop of `copyfiles` from its `i`-th read on: the destination and the messages. -/
def copy_loop (io : io_t) (i : Nat) (file CopyFile : File) : File × List message_t :=
  if io.read_fails i then (CopyFile, [.read_error])
  else
    let r := read file BUFFER_SIZE
    if _h : r.2.length = 0 then (CopyFile, [])
    else
      match io.write_takes i with
      | none => (CopyFile, [.write_error])
      | some takes =>
        let CopyFile := write CopyFile (r.2.take takes)
        if (r.2.take takes).length ≠ r.2.length then (CopyFile, [.write_error])
        else copy_loop io (i + 1) r.1 CopyFile
termination_by file.bytes.length - file.pos
decreasing_by exact length_read_pos _h

/-- `copyfiles` on the contents of two different files: the destination's contents
afterwards, `none` if it does not exist, and the messages. -/
def copyfiles (io : io_t) (src : List UInt8) (dest : Option (List UInt8)) : Option (List UInt8) × List message_t :=
  if !io.source_opens then (dest, [.open_source])
  else if !io.destination_opens then (dest, [.open_destination])
  else
    let (CopyFile, messages) := copy_loop io 0 ⟨src, 0⟩ ⟨[], 0⟩
    (some CopyFile.bytes, messages)

/-- The variables of `verifyfile` after its loop. `r2` is `none` while the variable is
uninitialised, and `mismatch` holds the offset printed. -/
structure verify_t where
  r1 : Nat
  r2 : Option Nat
  mismatch : Option Nat
  deriving DecidableEq, Repr

/-- The loop of `verifyfile`. The destination is read only if the source had bytes left,
so `r2` keeps the length of the piece before when the source ends. -/
def verify_loop (src_fd dest_fd : File) (r2 : Option Nat) (offset : Nat) : verify_t :=
  let buf1 := read src_fd BUFFER_SIZE
  if _h : buf1.2.length = 0 then ⟨0, r2, none⟩
  else
    let buf2 := read dest_fd BUFFER_SIZE
    if buf2.2.length = 0 then ⟨buf1.2.length, some 0, none⟩
    else if buf1.2.length ≠ buf2.2.length ∨ buf1.2 ≠ buf2.2 then ⟨buf1.2.length, some buf2.2.length, some offset⟩
    else verify_loop buf1.1 buf2.1 (some buf2.2.length) (offset + buf1.2.length)
termination_by src_fd.bytes.length - src_fd.pos
decreasing_by exact length_read_pos _h

/-- `verifyfile` on the contents of two files, `none` for one that does not open: the
messages it prints. The use of an uninitialised `r2` is undefined. -/
def verifyfile (src dest : Option (List UInt8)) : Option (List message_t) :=
  match src, dest with
  | some src, some dest =>
    let v := verify_loop ⟨src, 0⟩ ⟨dest, 0⟩ none 0
    let found := v.mismatch.toList.map message_t.mismatch
    match v.r2 with
    | none => none
    | some r2 =>
      if v.r1 ≠ r2 then some (.verifying :: found ++ [.sizes_differ])
      else if v.mismatch.isNone then some (.verifying :: found ++ [.identical])
      else some (.verifying :: found)
  | _, _ => some [.verifying, .open_verification]

/-- `main` on the source's contents and the destination's before: the texts it prints. -/
def main (io : io_t) (src : List UInt8) (dest : Option (List UInt8)) : Option (List String) := do
  let (dest, copied) := copyfiles io src dest
  let verified ← verifyfile (some src) dest
  return (copied ++ verified).map message_t.text

/-- `verifyfile` reports the files identical exactly if they are. -/
def Truthful (src dest : List UInt8) : Prop :=
  ∃ messages, verifyfile (some src) (some dest) = some messages ∧ (.identical ∈ messages ↔ src = dest)

/-- A copy that prints no error has copied the file. -/
private theorem copy_loop_clean {io : io_t} {i : Nat} (file : File) {CopyFile : File}
    (hend : CopyFile.pos = CopyFile.bytes.length)
    (hcopied : CopyFile.bytes = file.bytes.take file.pos) (hclean : (copy_loop io i file CopyFile).2 = []) :
    (copy_loop io i file CopyFile).1.bytes = file.bytes := by
  induction i, file, CopyFile using copy_loop.induct io with
  | case1 i file CopyFile hfails =>
    rw [copy_loop, if_pos hfails] at hclean
    cases hclean
  | case2 i file CopyFile hreads r hempty =>
    have hlen := length_slice file.bytes file.pos BUFFER_SIZE
    have hrest : (slice file.bytes file.pos BUFFER_SIZE).length = 0 := hempty
    have hsize : BUFFER_SIZE = 4096 := rfl
    rw [copy_loop, if_neg hreads, dif_pos hempty, hcopied]
    exact List.take_of_length_le (by omega)
  | case3 i file CopyFile hreads r hmore hfails =>
    rw [copy_loop, if_neg hreads, dif_neg hmore, hfails] at hclean
    cases hclean
  | case4 i file CopyFile hreads r hmore takes htakes hshort =>
    rw [copy_loop, if_neg hreads, dif_neg hmore, htakes] at hclean
    dsimp only at hclean
    rw [if_pos hshort] at hclean
    cases hclean
  | case5 i file CopyFile hreads r hmore takes htakes next hfull ih =>
    have hwhole : r.2.take takes = r.2 := by
      have hlen := List.length_take (i := takes) (l := r.2)
      exact List.take_of_length_le (by omega)
    have hstep : copy_loop io i file CopyFile = copy_loop io (i + 1) r.1 next := by
      rw [copy_loop, if_neg hreads, dif_neg hmore, htakes]
      dsimp only
      rw [if_neg hfull]
    have hbytes : next.bytes = CopyFile.bytes ++ slice file.bytes file.pos BUFFER_SIZE := by
      change write_at CopyFile.bytes CopyFile.pos (r.2.take takes) = _
      rw [hwhole, hend, write_at_end]
      rfl
    have hpos : next.pos = next.bytes.length := by
      rw [hbytes, List.length_append, ← hend]
      change CopyFile.pos + (r.2.take takes).length = _
      rw [hwhole]
      rfl
    rw [hstep] at hclean ⊢
    exact ih hpos (by rw [hbytes, hcopied, take_append_slice]; rfl) hclean

/-- A copy that met no error leaves the source's contents. -/
theorem copyfiles_clean {io : io_t} {src : List UInt8} {dest : Option (List UInt8)}
    (h : (copyfiles io src dest).2 = []) : (copyfiles io src dest).1 = some src := by
  unfold copyfiles at h ⊢
  split at h
  · cases h
  · rename_i hsource
    split at h
    · cases h
    · rename_i hdestination
      rw [if_neg hsource, if_neg hdestination]
      exact congrArg some (copy_loop_clean ⟨src, 0⟩ rfl rfl h)

/-- The loop ends with a difference found or with two lengths that differ: when the source
ends, `r2` is still the length of the piece before. -/
private theorem verify_loop_differs {src_fd dest_fd : File} {r2 : Option Nat} {offset : Nat}
    (hstale : ∀ k, r2 = some k → 0 < k) {k : Nat} (hlast : (verify_loop src_fd dest_fd r2 offset).r2 = some k) :
    (verify_loop src_fd dest_fd r2 offset).mismatch.isSome ∨ (verify_loop src_fd dest_fd r2 offset).r1 ≠ k := by
  induction src_fd, dest_fd, r2, offset using verify_loop.induct with
  | case1 src_fd dest_fd r2 offset buf1 hempty =>
    rw [verify_loop, dif_pos hempty] at hlast ⊢
    exact Or.inr (Nat.ne_of_lt (hstale k hlast))
  | case2 src_fd dest_fd r2 offset buf1 hmore buf2 hempty =>
    rw [verify_loop, dif_neg hmore, if_pos hempty] at hlast ⊢
    obtain rfl : 0 = k := Option.some.inj hlast
    exact Or.inr hmore
  | case3 src_fd dest_fd r2 offset buf1 hmore buf2 hfound hdiffer =>
    rw [verify_loop, dif_neg hmore, if_neg hfound, if_pos hdiffer]
    exact Or.inl rfl
  | case4 src_fd dest_fd r2 offset buf1 hmore buf2 hfound hequal ih =>
    rw [verify_loop, dif_neg hmore, if_neg hfound, if_neg hequal] at hlast ⊢
    exact ih (fun k hk => Option.some.inj hk ▸ Nat.pos_of_ne_zero hfound) hlast

/-- `r2` is used uninitialised exactly if the source is empty. -/
private theorem verify_loop_r2 {src_fd dest_fd : File} {r2 : Option Nat} {offset : Nat} :
    (verify_loop src_fd dest_fd r2 offset).r2 = none ↔ r2 = none ∧ (read src_fd BUFFER_SIZE).2 = [] := by
  induction src_fd, dest_fd, r2, offset using verify_loop.induct with
  | case1 src_fd dest_fd r2 offset buf1 hempty =>
    rw [verify_loop, dif_pos hempty]
    exact (and_iff_left (List.length_eq_zero_iff.mp hempty)).symm
  | case2 src_fd dest_fd r2 offset buf1 hmore buf2 hempty =>
    rw [verify_loop, dif_neg hmore, if_pos hempty]
    exact iff_of_false (by simp) fun h => hmore (List.length_eq_zero_iff.mpr h.2)
  | case3 src_fd dest_fd r2 offset buf1 hmore buf2 hfound hdiffer =>
    rw [verify_loop, dif_neg hmore, if_neg hfound, if_pos hdiffer]
    exact iff_of_false (by simp) fun h => hmore (List.length_eq_zero_iff.mpr h.2)
  | case4 src_fd dest_fd r2 offset buf1 hmore buf2 hfound hequal ih =>
    rw [verify_loop, dif_neg hmore, if_neg hfound, if_neg hequal, ih]
    exact iff_of_false (by simp) fun h => hmore (List.length_eq_zero_iff.mpr h.2)

theorem verifyfile_nil (dest : List UInt8) : verifyfile (some []) (some dest) = none := by
  have hr2 : (verify_loop ⟨[], 0⟩ ⟨dest, 0⟩ none 0).r2 = none := verify_loop_r2.mpr ⟨rfl, rfl⟩
  simp only [verifyfile, hr2]

/-- On a source with contents the verdict is defined, and never that the files are identical. -/
theorem verifyfile_defined {src : List UInt8} (hsrc : src ≠ []) (dest : List UInt8) :
    ∃ messages, verifyfile (some src) (some dest) = some messages ∧ .identical ∉ messages := by
  have hread : (read ⟨src, 0⟩ BUFFER_SIZE).2 ≠ [] := by
    cases src with
    | nil => exact absurd rfl hsrc
    | cons c src => simp [clib.file.read, slice, BUFFER_SIZE]
  cases hr2 : (verify_loop ⟨src, 0⟩ ⟨dest, 0⟩ none 0).r2 with
  | none => exact absurd (verify_loop_r2.mp hr2).2 hread
  | some r2 =>
    have hdiffers := verify_loop_differs (by simp) hr2
    simp only [verifyfile, hr2]
    split
    · exact ⟨_, rfl, by simp⟩
    · rename_i hsame
      have hfound := hdiffers.resolve_right fun h => hsame h
      obtain ⟨offset, hoffset⟩ := Option.isSome_iff_exists.mp hfound
      rw [hoffset]
      exact ⟨_, rfl, by simp⟩

/-- No verdict is that the files are identical. -/
theorem identical_notMem_verifyfile {src dest : List UInt8} {messages : List message_t}
    (h : verifyfile (some src) (some dest) = some messages) : .identical ∉ messages := by
  by_cases hsrc : src = []
  · rw [hsrc, verifyfile_nil] at h
    cases h
  · obtain ⟨messages', hdefined, hnot⟩ := verifyfile_defined hsrc dest
    rw [hdefined] at h
    exact Option.some.inj h ▸ hnot

/-- Only one message reads as the report of identical files. -/
theorem text_eq_identical {message : message_t} : message.text = message_t.identical.text ↔ message = .identical := by
  cases message with
  | mismatch offset =>
    refine iff_of_false (fun h => ?_) (by simp)
    have htext : "Mismatch detected at byte offset " ++ toString offset ++ "\n" =
        "Files are identical — byte accuracy verified.\n" := h
    have hchars := congrArg String.toList htext
    rw [String.toList_append, String.toList_append] at hchars
    have hhead := congrArg List.head? hchars
    simp at hhead
  | identical => exact iff_of_true rfl rfl
  | _ => exact iff_of_false (ne_of_apply_ne String.length (by decide)) (by simp)

private theorem identical_notMem_copy_loop (io : io_t) (i : Nat) (file CopyFile : File) :
    .identical ∉ (copy_loop io i file CopyFile).2 := by
  fun_induction copy_loop io i file CopyFile with
  | case5 i file CopyFile hreads r hmore takes htakes next hfull ih => exact ih
  | _ => simp

/-- The program never prints that the files are identical. -/
theorem main_never_identical {io : io_t} {src : List UInt8} {dest : Option (List UInt8)} {out : List String}
    (h : main io src dest = some out) : message_t.identical.text ∉ out := by
  rw [main, Option.bind_eq_bind, Option.bind_eq_some_iff] at h
  obtain ⟨verified, hverified, hout⟩ := h
  obtain rfl := Option.some.inj hout
  intro hmem
  obtain ⟨message, hmessage, htext⟩ := List.mem_map.mp hmem
  obtain rfl := text_eq_identical.mp htext
  rcases List.mem_append.mp hmessage with hcopied | hfound
  · unfold copyfiles at hcopied
    split at hcopied
    · simp at hcopied
    · split at hcopied
      · simp at hcopied
      · exact identical_notMem_copy_loop _ _ _ _ hcopied
  · cases hdest : (copyfiles io src dest).1 with
    | none =>
      rw [hdest] at hverified
      simp only [verifyfile, Option.some.injEq] at hverified
      subst hverified
      simp at hfound
    | some dest =>
      rw [hdest] at hverified
      exact identical_notMem_verifyfile hverified hfound

/-- `verifyfile` tells the truth exactly about two different files of which the first has
contents. It reports no copy as identical, however well it went. -/
theorem verifyfile_truthful_iff (src dest : List UInt8) :
    (Truthful src dest ↔ src ≠ [] ∧ src ≠ dest) ∧
      ∀ io old messages, (copyfiles io src old).2 = [] →
        verifyfile (some src) (copyfiles io src old).1 = some messages → .identical ∉ messages := by
  refine ⟨⟨?_, ?_⟩, ?_⟩
  · rintro ⟨messages, hrun, htrue⟩
    refine ⟨?_, fun hsame => identical_notMem_verifyfile hrun (htrue.mpr hsame)⟩
    rintro rfl
    rw [verifyfile_nil] at hrun
    cases hrun
  · rintro ⟨hsrc, hdiffer⟩
    obtain ⟨messages, hdefined, hnot⟩ := verifyfile_defined hsrc dest
    exact ⟨messages, hdefined, iff_of_false hnot hdiffer⟩
  · intro io old messages hclean hrun
    rw [copyfiles_clean hclean] at hrun
    exact identical_notMem_verifyfile hrun

/-- Two files with the one byte `a`: the second read of the source ends the loop, and its
length is compared with the first read of the destination. -/
theorem equal_files_differ :
    verifyfile (some [97]) (some [97]) = some [.verifying, .sizes_differ] ∧ ¬ Truthful [97] [97] := by
  have hrun : verifyfile (some [97]) (some [97]) = some [.verifying, .sizes_differ] := by
    have hloop : verify_loop ⟨[97], 0⟩ ⟨[97], 0⟩ none 0 = ⟨0, some 1, none⟩ := by
      rw [verify_loop, dif_neg (by decide), if_neg (by decide), if_neg (by decide), verify_loop, dif_pos (by decide)]
      rfl
    simp [verifyfile, hloop]
  refine ⟨hrun, ?_⟩
  rintro ⟨messages, hmessages, htrue⟩
  rw [hrun] at hmessages
  obtain rfl := Option.some.inj hmessages
  exact absurd (htrue.mpr rfl) (by decide)

end csystems.low_level_task
