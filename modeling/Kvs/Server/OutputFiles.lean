import Kvs.Server.RunJob
import Kvs.Server.Tokens

/-!
# The files a server run writes

Each job has an output file and a backup file for each of its `BACKUP` commands.  `entry_files` gives
the first the name of the job with `.job` replaced by `.out`: it cuts at the last dot, and turns a
path down that its buffers have no room for.  `kvs_backup` asks `strtok` for the name of the job, so
it cuts at the first dot behind the leading ones, and puts what it makes of it in a buffer of 50
bytes, with no questions asked.

So output files are told apart, from each other and from backups.  Two backups are told apart exactly
if their jobs differ in front of that dot or their ordinals differ, and this can be seen in the first
48 bytes of the path (`output_paths_differ_iff`).
-/

namespace Kvs

/-! ## Naming -/

/-- `strrchr(s, c)`: what is left of the string from the last `c` on. -/
def strrchr (c : Byte) : List Byte → Option (List Byte)
  | [] => none
  | b :: s =>
      match strrchr c s with
      | some found => some found
      | none => if b = c then some (b :: s) else none

/-- `strcpy(dest + offset, src)` into a `char[size]`. -/
def strcpyAt (size : ℕ) (dest : CString) (offset : ℕ) (src : CString) : Except Fault (Row size) :=
  strcat size (.ofBuffer (dest.bytes.take offset)) src

/-- `entry_files`: the paths of the input and of the output file, none for an entry of the directory
that is no job file or has too long a name. -/
def entryFiles (dir entry : CString) :
    Except Fault (Option (Row maxJobFileNameSize × Row maxJobFileNameSize)) :=
  match strrchr (char '.') entry.bytes with
  | none => pure none
  | some dot =>
      if dot.length = entry.length ∨ dot.length ≠ 4 ∨ dot ≠ text ".job" then pure none
      else if entry.length + dir.length + 2 > maxJobFileNameSize then pure none
      else do
        let inPath ← strcpy maxJobFileNameSize dir
        let inPath ← strcat maxJobFileNameSize inPath.val (.lit "/")
        let inPath ← strcat maxJobFileNameSize inPath.val entry
        let outPath ← strcpy maxJobFileNameSize inPath.val
        match strrchr (char '.') outPath.val.bytes with
        | none => .error .nullDeref
        | some dot => do
            let outPath ← strcpyAt maxJobFileNameSize outPath.val
              (outPath.val.length - dot.length) (.lit ".out")
            pure (some (inPath, outPath))

/-- The path of a backup of a job, after the `strtok` of each earlier one. -/
def backupPath (dir filename : CString) (ordinal : ℕ) : List Byte :=
  backupName dir (strtokRest^[ordinal - 1] filename) ordinal

/-- An entry of the jobs directory that is a job. -/
structure JobFile (dir : CString) where
  name : CString
  inPath : Row maxJobFileNameSize
  outPath : Row maxJobFileNameSize
  accepted : entryFiles dir name = .ok (some (inPath, outPath))

/-- A file that a run writes.  Backups are counted from 1. -/
inductive Output (dir : CString) where
  | Out (file : JobFile dir)
  | Backup (file : JobFile dir) (ordinal : ℕ) (positive : 1 ≤ ordinal)

def Output.path {dir : CString} : Output dir → List Byte
  | Out file => file.outPath.val.bytes
  | Backup file ordinal _ => backupPath dir file.name ordinal

/-! ## The condition -/

/-- The bytes of a name between its leading dots and the next one. -/
def firstToken (name : CString) : List Byte :=
  (name.bytes.dropWhile (· = char '.')).takeWhile (· ≠ char '.')

/-- The name of a backup file. -/
def backupText (name : CString) (ordinal : ℕ) : List Byte :=
  firstToken name ++ text "-" ++ text (toString ordinal) ++ text ".bck"

/-- What the path buffer of `kvs_backup` has room for, behind the directory and a slash. -/
def backupRoom (dir : CString) : ℕ := 48 - dir.length

/-- Different names of backup files that are not cut to the same bytes. -/
def BackupsApart (dir name name' : CString) (ordinal ordinal' : ℕ) : Prop :=
  (firstToken name ≠ firstToken name' ∨ ordinal ≠ ordinal') ∧
    ((backupText name ordinal).length ≤ backupRoom dir ∨
      (backupText name' ordinal').length ≤ backupRoom dir ∨
      (backupText name ordinal).take (backupRoom dir)
        ≠ (backupText name' ordinal').take (backupRoom dir))

/-- A condition on backups only. -/
def Output.Apart {dir : CString} : Output dir → Output dir → Prop
  | Backup file ordinal _, Backup file' ordinal' _ =>
      BackupsApart dir file.name file'.name ordinal ordinal'
  | _, _ => True

/-! ## Output files -/

lemma strrchr_append {c : Byte} {tail : List Byte} (htail : c ∉ tail) (front : List Byte) :
    strrchr c (front ++ c :: tail) = some (c :: tail) := by
  have hnone : ∀ tail : List Byte, c ∉ tail → strrchr c tail = none := by
    intro tail htail
    induction tail with
    | nil => rfl
    | cons b tail ih =>
        have hb : b ≠ c := fun h => htail (by simp [h])
        simp only [strrchr, ih fun h => htail (List.mem_cons_of_mem _ h), if_neg hb]
  induction front with
  | nil => simp [strrchr, hnone tail htail]
  | cons b front ih => simp only [List.cons_append, strrchr, ih]

lemma strrchr_eq_some {c : Byte} {s found : List Byte} (h : strrchr c s = some found) :
    ∃ front, s = front ++ found := by
  induction s with
  | nil => cases h
  | cons b s ih =>
      rw [strrchr] at h
      cases hs : strrchr c s with
      | some found' =>
          rw [hs] at h
          obtain rfl := Option.some.inj h
          obtain ⟨front, rfl⟩ := ih hs
          exact ⟨b :: front, rfl⟩
      | none =>
          simp only [hs] at h
          split_ifs at h
          obtain rfl := Option.some.inj h
          exact ⟨[], rfl⟩

/-- The output path is the input path with the other ending. -/
lemma strcpyAt_out {path : CString} {front : List Byte} (hpath : path.Fits maxJobFileNameSize)
    (hbytes : path.bytes = front ++ text ".job") :
    ∃ outPath, strcpyAt maxJobFileNameSize path (path.length - (text ".job").length) (.lit ".out")
      = .ok outPath ∧ outPath.val.bytes = front ++ text ".out" := by
  have hlength : path.length = front.length + 4 := by
    rw [CString.length, hbytes, List.length_append]
    rfl
  have hcut : (CString.ofBuffer (path.bytes.take (path.length - (text ".job").length))).bytes
      = front := by
    have htake : path.bytes.take (path.length - (text ".job").length) = front := by
      have hjob : (text ".job").length = 4 := rfl
      rw [hlength, hjob, Nat.add_sub_cancel, hbytes, List.take_left]
    rw [htake]
    refine CString.ofBuffer_bytes_of_nulFree fun hnul => path.nulFree ?_
    rw [hbytes]
    exact List.mem_append_left _ hnul
  have hfits : (CString.ofBuffer (path.bytes.take (path.length - (text ".job").length))
      ++ .lit ".out").Fits maxJobFileNameSize := by
    have hout : (CString.lit ".out").length = 4 := by decide
    have hlt : path.length < maxJobFileNameSize := hpath
    simp only [CString.Fits, CString.length_append, hout]
    rw [CString.length, hcut]
    omega
  refine ⟨_, strcat_of_fits hfits, ?_⟩
  show _ ++ text ".out" = _
  rw [hcut]

/-- **What `entry_files` does.**  It never stores outside its buffers, and the names it accepts are
those that end in `.job` and have something in front. -/
lemma entryFiles_spec (dir entry : CString) : entryFiles dir entry = .ok none ∨
    ∃ stem inPath outPath, stem ≠ [] ∧ entry.bytes = stem ++ text ".job" ∧
      entryFiles dir entry = .ok (some (inPath, outPath)) ∧
      inPath.val.bytes = dir.bytes ++ text "/" ++ entry.bytes ∧
      outPath.val.bytes = dir.bytes ++ text "/" ++ stem ++ text ".out" := by
  cases hdot : strrchr (char '.') entry.bytes with
  | none =>
      left
      simp only [entryFiles, hdot, pure_eq_ok]
  | some dot =>
      by_cases hname : dot.length = entry.length ∨ dot.length ≠ 4 ∨ dot ≠ text ".job"
      · left
        simp only [entryFiles, hdot, if_pos hname, pure_eq_ok]
      · by_cases hlong : entry.length + dir.length + 2 > maxJobFileNameSize
        · left
          simp only [entryFiles, hdot, if_neg hname, if_pos hlong, pure_eq_ok]
        · right
          obtain ⟨stem, hentry⟩ := strrchr_eq_some hdot
          obtain ⟨hfirst, -, rfl⟩ : dot.length ≠ entry.length ∧ dot.length = 4 ∧ dot = text ".job" := by
            simpa only [not_or, not_not] using hname
          have hstem : stem ≠ [] := by
            rintro rfl
            rw [List.nil_append] at hentry
            exact hfirst (congrArg List.length hentry).symm
          have hslash : (CString.lit "/").length = 1 := by decide
          have hdir : dir.Fits maxJobFileNameSize := by
            simp only [CString.Fits]
            omega
          have hslashed : (dir ++ .lit "/").Fits maxJobFileNameSize := by
            simp only [CString.Fits, CString.length_append]
            omega
          have hpath : (dir ++ .lit "/" ++ entry).Fits maxJobFileNameSize := by
            simp only [CString.Fits, CString.length_append]
            omega
          have hbytes : (dir ++ .lit "/" ++ entry).bytes
              = dir.bytes ++ text "/" ++ stem ++ text ".job" := by
            rw [CString.bytes_append, hentry, ← List.append_assoc]
            rfl
          have hlast : strrchr (char '.') (dir ++ .lit "/" ++ entry).bytes = some (text ".job") := by
            have hnodot : char '.' ∉ text "job" := by decide
            rw [hbytes]
            exact strrchr_append hnodot _
          obtain ⟨outPath, hout, houtBytes⟩ := strcpyAt_out hpath hbytes
          refine ⟨stem, ⟨_, hpath⟩, outPath, hstem, hentry, ?_, rfl, houtBytes⟩
          simp only [entryFiles, hdot, if_neg hname, if_neg hlong, strcpy_of_fits hdir,
            strcat_of_fits hslashed, strcat_of_fits hpath, strcpy_of_fits hpath, ok_bind, hlast, hout,
            pure_eq_ok]

namespace JobFile

variable {dir : CString} {file file' : JobFile dir}

/-- A job is known by its name. -/
lemma ext_name (h : file.name = file'.name) : file = file' := by
  obtain ⟨name, inPath, outPath, haccepted⟩ := file
  obtain ⟨name', inPath', outPath', haccepted'⟩ := file'
  obtain rfl : name = name' := h
  obtain ⟨rfl, rfl⟩ : inPath = inPath' ∧ outPath = outPath' := by
    simpa using haccepted.symm.trans haccepted'
  rfl

lemma exists_stem (file : JobFile dir) : ∃ stem, stem ≠ [] ∧
    file.name.bytes = stem ++ text ".job" ∧
    file.outPath.val.bytes = dir.bytes ++ text "/" ++ stem ++ text ".out" := by
  rcases entryFiles_spec dir file.name with h | ⟨stem, inPath, outPath, hstem, hname, h, -, hout⟩
  · rw [file.accepted] at h
    simp at h
  · obtain ⟨-, rfl⟩ : file.inPath = inPath ∧ file.outPath = outPath := by
      simpa using file.accepted.symm.trans h
    exact ⟨stem, hstem, hname, hout⟩

/-- **Two jobs have two output files.** -/
lemma outPath_injective (h : file.outPath.val.bytes = file'.outPath.val.bytes) : file = file' := by
  obtain ⟨stem, -, hname, hout⟩ := file.exists_stem
  obtain ⟨stem', -, hname', hout'⟩ := file'.exists_stem
  rw [hout, hout'] at h
  have hstem : stem = stem' := List.append_cancel_left (List.append_cancel_right h)
  refine ext_name (CString.ext ?_)
  rw [hname, hname', hstem]

end JobFile

/-! ## Backup files -/

/-- Behind the leading dots there is none. -/
lemma dropWhile_dots_head {bytes rest : List Byte} {b : Byte}
    (h : bytes.dropWhile (· = char '.') = b :: rest) : b ≠ char '.' := by
  have hhead := List.head?_dropWhile_not (fun c => decide (c = char '.')) bytes
  rw [h] at hhead
  simpa using hhead

lemma dropWhile_takeWhile_dots (bytes : List Byte) :
    ((bytes.dropWhile (· = char '.')).takeWhile (· ≠ char '.')).dropWhile (· = char '.')
      = (bytes.dropWhile (· = char '.')).takeWhile (· ≠ char '.') := by
  cases hbytes : bytes.dropWhile (· = char '.') with
  | nil => rfl
  | cons b rest =>
      have hb := dropWhile_dots_head hbytes
      rw [List.takeWhile_cons_of_pos (by simpa using hb),
        List.dropWhile_cons_of_neg (by simpa using hb)]

lemma strtokRest_bytes (name : CString) :
    (strtokRest name).bytes = name.bytes.takeWhile (· = char '.') ++ firstToken name := by
  refine CString.ofBuffer_bytes_of_nulFree fun hnul => name.nulFree ?_
  rcases List.mem_append.mp hnul with h | h
  · exact (List.takeWhile_prefix _).subset h
  · exact (List.dropWhile_suffix _).subset ((List.takeWhile_prefix _).subset h)

/-- `strtok` finds the same token in what it has left. -/
lemma firstToken_strtokRest (name : CString) : firstToken (strtokRest name) = firstToken name := by
  have hdots : ∀ b ∈ name.bytes.takeWhile (· = char '.'), decide (b = char '.') = true := by
    intro b hb
    have hdot := List.mem_takeWhile_imp hb
    exact hdot
  rw [firstToken, strtokRest_bytes, List.dropWhile_append_of_pos hdots, firstToken,
    dropWhile_takeWhile_dots, List.takeWhile_takeWhile]
  simp

lemma firstToken_iterate (name : CString) (n : ℕ) :
    firstToken (strtokRest^[n] name) = firstToken name := by
  induction n with
  | zero => rfl
  | succ n ih => rw [Function.iterate_succ_apply', firstToken_strtokRest, ih]

lemma printedString_strtok {name : CString} (h : firstToken name ≠ []) :
    printedString (strtok name) = firstToken name := by
  have hnul : (0 : Byte) ∉ firstToken name := by
    intro hmem
    exact name.nulFree ((List.dropWhile_suffix _).subset ((List.takeWhile_prefix _).subset hmem))
  rw [firstToken] at h hnul ⊢
  rw [strtok]
  cases hbytes : name.bytes.dropWhile (· = char '.') with
  | nil =>
      rw [hbytes] at h
      exact absurd rfl h
  | cons b rest =>
      rw [hbytes] at hnul
      exact CString.ofBuffer_bytes_of_nulFree hnul

lemma backupPath_eq (dir : CString) {name : CString} (h : firstToken name ≠ []) (ordinal : ℕ) :
    backupPath dir name ordinal
      = (dir.bytes ++ char '/' :: backupText name ordinal).take 49 := by
  rw [backupPath, backupName, printedString_strtok (by rwa [firstToken_iterate]),
    firstToken_iterate]
  have hslash : text "/" = [char '/'] := rfl
  simp only [snprintf, backupNameSize, hslash, backupText, List.append_assoc, List.cons_append,
    List.nil_append]

/-- The name of a job has something between dots: `job`, if nothing else. -/
lemma JobFile.firstToken_ne_nil {dir : CString} (file : JobFile dir) :
    firstToken file.name ≠ [] := by
  obtain ⟨stem, -, hname, -⟩ := file.exists_stem
  rw [firstToken]
  cases hbytes : file.name.bytes.dropWhile (· = char '.') with
  | nil =>
      have hmem : char 'j' ∈ file.name.bytes := by
        rw [hname]
        exact List.mem_append_right _ (by decide)
      have hdot := List.dropWhile_eq_nil_iff.mp hbytes (char 'j') hmem
      exact absurd hdot (by decide)
  | cons b rest =>
      have hb := dropWhile_dots_head hbytes
      rw [List.takeWhile_cons_of_pos (by simpa using hb)]
      simp

/-! ## Their names -/

lemma toNat_toUInt8 {c : Char} (hc : c.isDigit = true) :
    c.toUInt8.toNat = c.toNat ∧ 48 ≤ c.toNat ∧ c.toNat ≤ 57 := by
  have hrange : 48 ≤ c.toNat ∧ c.toNat ≤ 57 := by
    simpa [Char.isDigit, UInt32.le_iff_toNat_le] using hc
  refine ⟨?_, hrange⟩
  have hmod : c.toUInt8.toNat = c.toNat % 256 := rfl
  omega

lemma text_toString (n : ℕ) : text (toString n) = (Nat.toDigits 10 n).map Char.toUInt8 := by
  simp [text]

lemma isDigit_toDigits {n : ℕ} {c : Char} (hc : c ∈ Nat.toDigits 10 n) : c.isDigit = true :=
  Nat.isDigit_of_mem_toDigits (by decide) (by decide) hc

lemma digits_toString (n : ℕ) : Digits (text (toString n)) := by
  intro b hb
  rw [text_toString] at hb
  obtain ⟨c, hc, rfl⟩ := List.mem_map.mp hb
  obtain ⟨hbyte, hrange⟩ := toNat_toUInt8 (isDigit_toDigits hc)
  rw [isDigit_iff, hbyte]
  exact hrange

/-- A number is read back from its digits. -/
lemma decimal_toString (n : ℕ) : decimal (text (toString n)) = n := by
  have hfold : ∀ (cs : List Char) (value : ℕ), (∀ c ∈ cs, c.isDigit = true) →
      (cs.map Char.toUInt8).foldl (fun value c => 10 * value + (c.toNat - 48)) value
        = Nat.ofDigitChars 10 cs value := by
    intro cs
    induction cs with
    | nil =>
        intro value _
        simp
    | cons c cs ih =>
        intro value hcs
        rw [List.map_cons, List.foldl_cons, (toNat_toUInt8 (hcs c (by simp))).1,
          ih _ (fun d hd => hcs d (List.mem_cons_of_mem _ hd)), Nat.ofDigitChars_cons]
        rfl
  rw [text_toString, decimal, hfold _ _ fun c hc => isDigit_toDigits hc,
    Nat.ofDigitChars_ten_toDigits]

/-- The last occurrence of a byte splits a list in one way. -/
lemma split_last_unique {c : Byte} {a b x y : List Byte} (hx : c ∉ x) (hy : c ∉ y)
    (h : a ++ c :: x = b ++ c :: y) : a = b ∧ x = y := by
  have hlast := congrArg (strrchr c) h
  rw [strrchr_append hx, strrchr_append hy] at hlast
  obtain rfl : x = y := by simpa using hlast
  exact ⟨List.append_cancel_right h, rfl⟩

/-- The part of a backup name in front of the dot: no dots in it. -/
lemma backupText_eq (name : CString) (ordinal : ℕ) :
    backupText name ordinal
      = (firstToken name ++ char '-' :: text (toString ordinal)) ++ char '.' :: text "bck" := by
  have hdash : text "-" = [char '-'] := rfl
  have hending : text ".bck" = char '.' :: text "bck" := rfl
  simp only [backupText, hdash, hending, List.append_assoc, List.cons_append, List.nil_append]

lemma not_mem_digits {c : Byte} (hc : isDigit c = false) (n : ℕ) : c ∉ text (toString n) := by
  intro h
  rw [digits_toString n c h] at hc
  cases hc

lemma dot_not_mem_front (name : CString) (ordinal : ℕ) :
    char '.' ∉ firstToken name ++ char '-' :: text (toString ordinal) := by
  intro h
  rcases List.mem_append.mp h with h | h
  · have hne := List.mem_takeWhile_imp h
    simp at hne
  · rcases List.mem_cons.mp h with h | h
    · exact absurd h (by decide)
    · exact not_mem_digits (by decide) ordinal h

lemma dot_not_mem_bck : char '.' ∉ text "bck" := by decide

/-- **Two backups have two names** unless they have the same token and ordinal. -/
lemma backupText_injective {name name' : CString} {ordinal ordinal' : ℕ}
    (h : backupText name ordinal = backupText name' ordinal') :
    firstToken name = firstToken name' ∧ ordinal = ordinal' := by
  rw [backupText_eq, backupText_eq] at h
  have hfront := (split_last_unique dot_not_mem_bck dot_not_mem_bck h).1
  obtain ⟨htoken, hdigits⟩ :=
    split_last_unique (not_mem_digits (by decide) ordinal) (not_mem_digits (by decide) ordinal') hfront
  refine ⟨htoken, ?_⟩
  rw [← decimal_toString ordinal, hdigits, decimal_toString]

/-- A backup name is the beginning of no other. -/
lemma backupText_append {name name' : CString} {ordinal ordinal' : ℕ} {rest : List Byte}
    (h : backupText name ordinal ++ rest = backupText name' ordinal') : rest = [] := by
  rw [backupText_eq, backupText_eq, List.append_assoc, List.cons_append] at h
  have hsplit := (List.append_cons_inj_of_notMem (dot_not_mem_front name' ordinal')
    dot_not_mem_bck).mp h.symm
  have hlength := congrArg List.length hsplit.2.2
  rw [List.length_append] at hlength
  exact List.eq_nil_of_length_eq_zero (by omega)

/-- **What is cut apart.**  Cut to the same room, two names are the same exactly if they are the same
name, or both were too long and agree as far as there was room. -/
lemma backupsApart_iff (dir name name' : CString) (ordinal ordinal' : ℕ) :
    (backupText name ordinal).take (backupRoom dir) ≠ (backupText name' ordinal').take (backupRoom dir)
      ↔ BackupsApart dir name name' ordinal ordinal' := by
  have hwhole : ∀ {name name' : CString} {ordinal ordinal' : ℕ},
      (backupText name ordinal).length ≤ backupRoom dir →
      (backupText name ordinal).take (backupRoom dir)
        = (backupText name' ordinal').take (backupRoom dir) →
      firstToken name = firstToken name' ∧ ordinal = ordinal' := by
    intro name name' ordinal ordinal' hfits h
    rw [List.take_of_length_le hfits] at h
    have hrest : backupText name ordinal ++ (backupText name' ordinal').drop (backupRoom dir)
        = backupText name' ordinal' := by
      rw [h, List.take_append_drop]
    rw [backupText_append hrest, List.append_nil] at hrest
    exact backupText_injective hrest
  constructor
  · intro h
    refine ⟨?_, Or.inr (Or.inr h)⟩
    by_contra hsame
    simp only [not_or, not_not] at hsame
    refine h ?_
    rw [backupText, backupText, hsame.1, hsame.2]
  · rintro ⟨hdiffer, hfits | hfits | hcut⟩ h
    · obtain ⟨htoken, hordinal⟩ := hwhole hfits h
      exact hdiffer.elim (absurd htoken) (absurd hordinal)
    · obtain ⟨htoken, hordinal⟩ := hwhole hfits h.symm
      exact hdiffer.elim (absurd htoken.symm) (absurd hordinal.symm)
    · exact hcut h

/-! ## Paths -/

/-- The buffer of 50 bytes leaves room behind the directory, if it is not too long itself. -/
lemma cutPath_eq_iff (dir : CString) (name name' : List Byte) :
    (dir.bytes ++ char '/' :: name).take 49 = (dir.bytes ++ char '/' :: name').take 49 ↔
      name.take (backupRoom dir) = name'.take (backupRoom dir) := by
  rw [List.take_append, List.take_append, List.append_cancel_left_eq, backupRoom, CString.length]
  by_cases hdir : dir.bytes.length ≤ 48
  · have hroom : 49 - dir.bytes.length = (48 - dir.bytes.length) + 1 := by omega
    rw [hroom, List.take_succ_cons, List.take_succ_cons, List.cons.injEq, and_iff_right rfl]
  · have hnone : 49 - dir.bytes.length = 0 := by omega
    have hnone' : 48 - dir.bytes.length = 0 := by omega
    simp [hnone, hnone']

/-- **A backup is no output file**: a name that ends in `.out` is not the beginning of one that ends
in `.bck`. -/
lemma outPath_ne_backupPath {dir : CString} (file file' : JobFile dir) (ordinal : ℕ) :
    file.outPath.val.bytes ≠ backupPath dir file'.name ordinal := by
  intro h
  obtain ⟨stem, -, -, hout⟩ := file.exists_stem
  rw [hout, backupPath_eq dir file'.firstToken_ne_nil] at h
  have hprefix : dir.bytes ++ text "/" ++ stem ++ text ".out"
      <+: dir.bytes ++ char '/' :: backupText file'.name ordinal := by
    rw [h]
    exact List.take_prefix _ _
  obtain ⟨rest, hrest⟩ := hprefix
  have hnames : stem ++ char '.' :: (text "out" ++ rest) = backupText file'.name ordinal := by
    have hslash : text "/" = [char '/'] := rfl
    have hending : text ".out" = char '.' :: text "out" := rfl
    simpa [hslash, hending] using hrest
  rw [backupText_eq] at hnames
  have hsplit := (List.append_cons_inj_of_notMem (dot_not_mem_front file'.name ordinal)
    dot_not_mem_bck).mp hnames.symm
  have hhead : char 'b' = char 'o' := (List.cons.inj hsplit.2.2).1
  exact absurd hhead (by decide)

/-! ## Runs -/

namespace Job

/-- The backups of a job so far, and what `strtok` has left of its name. -/
def BackupsNamed (env : JobEnvironment) (filename : CString) (job : Job) : Prop :=
  job.filename = strtokRest^[job.fileBackups] filename ∧
    ∀ file ∈ job.backups, ∃ ordinal, 1 ≤ ordinal ∧ ordinal ≤ job.fileBackups ∧
      file.name = backupPath env.jobsDirectory filename ordinal

variable {env : JobEnvironment} {filename : CString} {job job' : Job}

/-- A command names its backup as it should, if it is one. -/
lemma BackupsNamed.execute (h : job.BackupsNamed env filename) {command : JobCommand}
    {status : Option ℤ} (hexecute : job.execute env command = .ok (status, job')) :
    job'.BackupsNamed env filename := by
  by_cases hbackup : command = .Backup
  · subst hbackup
    obtain ⟨-, rfl⟩ : _ ∧ _ = job' := by
      simpa only [Job.execute, pure_eq_ok, Except.ok.injEq, Prod.mk.injEq] using hexecute
    obtain ⟨hfilename, hbackups⟩ := h
    have hrest : strtokRest job.filename = strtokRest^[job.fileBackups + 1] filename := by
      rw [Function.iterate_succ_apply', hfilename]
    have hold : ∀ file ∈ job.backups, ∃ ordinal, 1 ≤ ordinal ∧ ordinal ≤ job.fileBackups + 1 ∧
        file.name = backupPath env.jobsDirectory filename ordinal := by
      intro file hfile
      obtain ⟨ordinal, hpos, hle, hname⟩ := hbackups file hfile
      exact ⟨ordinal, hpos, by omega, hname⟩
    generalize (if job.activeBackups ≥ env.maxBackups then job.activeBackups
      else job.activeBackups + 1) = activeBackups
    rw [kvsBackup]
    dsimp only
    split_ifs
    · exact ⟨hrest, hold⟩
    · refine ⟨hrest, ?_⟩
      intro file hfile
      rcases List.mem_append.mp hfile with hfile | hfile
      · exact hold file hfile
      · rw [List.mem_singleton.mp hfile]
        refine ⟨job.fileBackups + 1, by omega, le_refl _, ?_⟩
        show backupName _ job.filename _ = _
        rw [backupPath, Nat.add_sub_cancel, hfilename]
  · obtain ⟨hfilename, hcount, hbackups⟩ := (execute_frame hexecute).2 hbackup
    rw [BackupsNamed, hfilename, hcount, hbackups]
    exact h

/-- All rounds, by induction over the fuel. -/
lemma BackupsNamed.runLoop {fuel : ℕ} {status : ℤ} (h : job.BackupsNamed env filename)
    (hrun : runLoop env fuel job = .ok (status, job')) : job'.BackupsNamed env filename := by
  induction fuel generalizing job with
  | zero => cases hrun
  | succ fuel ih =>
      rw [Job.runLoop] at hrun
      obtain ⟨⟨command, job₁⟩, hnext, hrun⟩ := bind_eq_ok.mp hrun
      obtain ⟨⟨status₁, job₂⟩, hexecute, hrun⟩ := bind_eq_ok.mp hrun
      have h₁ : job₁.BackupsNamed env filename := by
        obtain ⟨⟨command', input⟩, -, heq⟩ := by simpa only [next, bind_eq_ok] using hnext
        obtain ⟨-, rfl⟩ : command' = command ∧ _ = job₁ := by simpa using heq
        exact h
      have h₂ := h₁.execute hexecute
      cases status₁ with
      | some status₁ =>
          obtain ⟨-, rfl⟩ : _ ∧ job₂ = job' := by simpa using hrun
          exact h₂
      | none => exact ih h₂ hrun

/-- **The backups of a run** are those of its job, from the first on. -/
theorem runJob_backupsNamed {input : Input} {ht : HashTable} {activeBackups : ℕ} {status : ℤ}
    (hrun : (start input ht filename activeBackups).runJob env = .ok (status, job')) :
    ∀ file ∈ job'.backups, ∃ ordinal, 1 ≤ ordinal ∧
      file.name = backupPath env.jobsDirectory filename ordinal := by
  have hstart : (start input ht filename activeBackups).BackupsNamed env filename :=
    ⟨rfl, fun file hfile => absurd hfile (List.not_mem_nil)⟩
  intro file hfile
  obtain ⟨ordinal, hpos, -, hname⟩ := (hstart.runLoop hrun).2 file hfile
  exact ⟨ordinal, hpos, hname⟩

end Job

/-! ## Exactly when the paths differ -/

/-- **Exactly when two outputs have two paths.**  For every jobs directory and every two distinct
outputs in it: the paths differ unless both are backups and either the names of the jobs agree up to
the first dot behind the leading ones and the ordinals are the same, or the names of both backup
files are longer than the 48 bytes the directory leaves and agree that far. -/
theorem output_paths_differ_iff {dir : CString} (o o' : Output dir) (h : o ≠ o') :
    o.path ≠ o'.path ↔ o.Apart o' := by
  cases o with
  | Out file =>
      cases o' with
      | Out file' =>
          refine ⟨fun _ => trivial, fun _ hpath => h ?_⟩
          rw [JobFile.outPath_injective hpath]
      | Backup file' ordinal' hpos' =>
          exact ⟨fun _ => trivial, fun _ => outPath_ne_backupPath file file' ordinal'⟩
  | Backup file ordinal hpos =>
      cases o' with
      | Out file' =>
          exact ⟨fun _ => trivial, fun _ => (outPath_ne_backupPath file' file ordinal).symm⟩
      | Backup file' ordinal' hpos' =>
          show backupPath _ _ _ ≠ backupPath _ _ _ ↔ BackupsApart _ _ _ _ _
          rw [← backupsApart_iff, backupPath_eq dir file.firstToken_ne_nil,
            backupPath_eq dir file'.firstToken_ne_nil]
          exact not_congr (cutPath_eq_iff dir _ _)

/-- The first backups of `a.job` and `b.job`. -/
theorem output_paths_differ_two : ∃ o o' : Output (.lit "jobs"),
    o.path = text "jobs/a-1.bck" ∧ o'.path = text "jobs/b-1.bck" ∧ o.path ≠ o'.path := by
  set file : JobFile (.lit "jobs") := ⟨.lit "a.job", _, _, rfl⟩ with hfile
  set file' : JobFile (.lit "jobs") := ⟨.lit "b.job", _, _, rfl⟩ with hfile'
  have hname : file.name ≠ file'.name := by decide
  refine ⟨.Backup file 1 le_rfl, .Backup file' 1 le_rfl, by decide, by decide, ?_⟩
  refine (output_paths_differ_iff _ _ ?_).mpr ?_
  · intro h
    exact hname (congrArg JobFile.name (Output.Backup.inj h).1)
  · exact ⟨Or.inl (by decide), Or.inl (by decide)⟩

/-- The first backups of `a.x.job` and `a.y.job`, which write the same file. -/
theorem backups_collide : ∃ o o' : Output (.lit "jobs"), o ≠ o' ∧
    o.path = text "jobs/a-1.bck" ∧ o'.path = text "jobs/a-1.bck" := by
  set file : JobFile (.lit "jobs") := ⟨.lit "a.x.job", _, _, rfl⟩ with hfile
  set file' : JobFile (.lit "jobs") := ⟨.lit "a.y.job", _, _, rfl⟩ with hfile'
  have hname : file.name ≠ file'.name := by decide
  refine ⟨.Backup file 1 le_rfl, .Backup file' 1 le_rfl, ?_, by decide, by decide⟩
  intro h
  exact hname (congrArg JobFile.name (Output.Backup.inj h).1)

end Kvs
