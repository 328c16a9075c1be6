import IstKvs.Jobs.Parser
import IstKvs.Store.Placement

/-! The bytes of a backup file (`kvs_backup`) next to those of `kvs_show`. The
child formats each node with four bounded copies into a buffer of
`MAX_STRING_SIZE` bytes, which holds the line of `kvs_show` only when it has at
most 39 bytes. -/

namespace IstKvs.Backups

open IstKvs.Store

/-! ### Printing a table -/

/-- The loop over the nodes of one bucket, for the bytes of a node. -/
def printChain (item : CStr → CStr → List UInt8) (w : Writer) (chain : List KeyNode) :
    Except Fault Writer :=
  chain.foldlM (fun w keyNode => match keyNode.value with
    | some value => .ok { w with out := w.out ++ item keyNode.key value }
    | none => .error .null) w

/-- The bytes printed for a node that has a value. -/
def printed (item : CStr → CStr → List UInt8) (keyNode : KeyNode) : List UInt8 :=
  (keyNode.value.map (item keyNode.key)).getD []

/-- A node whose value was lost to a failed `strdup`. -/
def Valueless (keyNode : KeyNode) : Prop := keyNode.value = none

instance (keyNode : KeyNode) : Decidable (Valueless keyNode) :=
  inferInstanceAs (Decidable (keyNode.value = none))

theorem printChain_eq (item : CStr → CStr → List UInt8) (w : Writer) (chain : List KeyNode) :
    printChain item w chain =
      if ∃ keyNode ∈ chain, Valueless keyNode then .error .null
      else .ok { w with out := w.out ++ chain.flatMap (printed item) } := by
  induction chain generalizing w with
  | nil =>
    simp only [List.not_mem_nil, false_and, exists_false, if_false, List.flatMap_nil,
      List.append_nil]
    rfl
  | cons keyNode chain ih =>
    cases hv : keyNode.value with
    | none =>
      rw [if_pos ⟨keyNode, List.mem_cons_self, hv⟩, printChain, List.foldlM_cons, hv]
      rfl
    | some value =>
      have hstep : printChain item w (keyNode :: chain) =
          printChain item { w with out := w.out ++ item keyNode.key value } chain := by
        rw [printChain, List.foldlM_cons, hv]
        rfl
      have hprinted : printed item keyNode = item keyNode.key value := by simp [printed, hv]
      rw [hstep, ih]
      simp [Valueless, hv, hprinted]

/-- Bucket by bucket is node by node. -/
theorem foldlM_printChain (item : CStr → CStr → List UInt8) (ht : HashTable) (w : Writer)
    (is : List Bucket) :
    is.foldlM (fun w i => printChain item w (ht i)) w = printChain item w (is.flatMap ht) := by
  induction is generalizing w with
  | nil => rfl
  | cons i is ih =>
    have happend : printChain item w (ht i ++ is.flatMap ht) =
        printChain item w (ht i) >>= fun w => printChain item w (is.flatMap ht) :=
      List.foldlM_append
    rw [List.foldlM_cons, List.flatMap_cons, happend]
    exact congrArg _ (funext fun w => ih w)

/-! ### The child's formatter -/

/-- `strn_memcpy` to the end of what `aux` holds, with the bound of the call: a
byte of the buffer stays free for the NUL. -/
def strnMemcpy (aux src : List UInt8) : List UInt8 :=
  aux ++ src.take (maxStringSize - aux.length - 1)

/-- What `aux` holds when it is written to the file. -/
def backupItem (key value : CStr) : List UInt8 :=
  strnMemcpy (strnMemcpy (strnMemcpy (strnMemcpy (chars ['(']) key.bytes) (chars [',', ' ']))
    value.bytes) (chars [')', '\n'])

def backupChain (w : Writer) (chain : List KeyNode) : Except Fault Writer :=
  printChain backupItem w chain

/-- The file, if no value is NULL; what the child leaves in it otherwise is in `backupFile`. -/
def kvsBackup (ht : HashTable) : Except Fault (List UInt8) := do
  let w ← (List.finRange tableSize).foldlM (fun w i => backupChain w (ht i)) ⟨[], false⟩
  pure w.out

/-- The whole line of a pair. -/
def pairLine (key value : CStr) : List UInt8 :=
  chars ['('] ++ key.bytes ++ chars [',', ' '] ++ value.bytes ++ chars [')', '\n']

theorem length_pairLine (key value : CStr) :
    (pairLine key value).length = key.length + value.length + 5 := by
  simp only [pairLine, chars, List.length_append, List.length_map, List.length_cons,
    List.length_nil, CStr.length]
  omega

theorem showItem_eq (key value : CStr) : showItem key value = (pairLine key value).take 255 := rfl

/-- A bounded copy keeps what the buffer holds a prefix of the whole text. -/
theorem strnMemcpy_take (text src : List UInt8) :
    strnMemcpy (text.take (maxStringSize - 1)) src = (text ++ src).take (maxStringSize - 1) := by
  have hbound : maxStringSize - min (maxStringSize - 1) text.length - 1 =
      maxStringSize - 1 - text.length := by
    omega
  rw [strnMemcpy, List.length_take, hbound, List.take_append]

/-- The buffer holds the first 39 bytes of the line. -/
theorem backupItem_eq (key value : CStr) :
    backupItem key value = (pairLine key value).take (maxStringSize - 1) := by
  have hopen : chars ['('] = (chars ['(']).take (maxStringSize - 1) := rfl
  rw [backupItem, hopen]
  simp only [strnMemcpy_take]
  rfl

/-! ### Backup and show -/

theorem printed_backup_le (keyNode : KeyNode) :
    (printed backupItem keyNode).length ≤ (printed showItem keyNode).length := by
  cases hv : keyNode.value with
  | none => simp [printed, hv]
  | some value =>
    simp only [printed, hv, Option.map_some, Option.getD_some, backupItem_eq, showItem_eq,
      List.length_take, maxStringSize]
    omega

/-- The two lines of a node agree exactly when the whole line fits. -/
theorem printed_eq_iff (keyNode : KeyNode) :
    printed backupItem keyNode = printed showItem keyNode ↔
      ∀ value, keyNode.value = some value → keyNode.key.length + value.length ≤ 34 := by
  cases hv : keyNode.value with
  | none => simp [printed, hv]
  | some value =>
    simp only [printed, hv, Option.map_some, Option.getD_some, backupItem_eq, showItem_eq,
      maxStringSize, Option.some.injEq, forall_eq']
    have hlen := length_pairLine keyNode.key value
    constructor
    · intro he
      have he' := congrArg List.length he
      simp only [List.length_take] at he'
      omega
    · intro hle
      rw [List.take_of_length_le (by omega), List.take_of_length_le (by omega)]

/-- Texts that are each no longer than another's agree one by one when all of them together do. -/
theorem flatMap_eq_iff {A B : Type*} {f g : A → List B} {xs : List A}
    (hle : ∀ x ∈ xs, (f x).length ≤ (g x).length) :
    xs.flatMap f = xs.flatMap g ↔ ∀ x ∈ xs, f x = g x := by
  constructor
  · intro he
    induction xs with
    | nil => simp
    | cons x xs ih =>
      have hx := hle x List.mem_cons_self
      have hxs := fun y hy => hle y (List.mem_cons_of_mem x hy)
      have hsum : (xs.flatMap f).length ≤ (xs.flatMap g).length := by
        rw [List.length_flatMap, List.length_flatMap]
        exact List.sum_le_sum hxs
      have hlen := congrArg List.length he
      simp only [List.flatMap_cons, List.length_append] at he hlen
      obtain ⟨hhead, htail⟩ := List.append_inj he (by omega)
      exact List.forall_mem_cons.mpr ⟨hhead, ih hxs htail⟩
  · exact fun h => List.flatMap_congr h

theorem kvsShow_eq (ht : HashTable) :
    kvsShow ht = if ∃ keyNode ∈ nodes ht, Valueless keyNode then .error .null
      else .ok ((nodes ht).flatMap (printed showItem)) := by
  change ((List.finRange tableSize).foldlM (fun w i => printChain showItem w (ht i)) _ >>= _) = _
  rw [foldlM_printChain, printChain_eq, nodes]
  split_ifs <;> rfl

theorem kvsBackup_eq (ht : HashTable) :
    kvsBackup ht = if ∃ keyNode ∈ nodes ht, Valueless keyNode then .error .null
      else .ok ((nodes ht).flatMap (printed backupItem)) := by
  change ((List.finRange tableSize).foldlM (fun w i => printChain backupItem w (ht i)) _ >>= _) = _
  rw [foldlM_printChain, printChain_eq, nodes]
  split_ifs <;> rfl

/-! ### What is in the files -/

/-- What a loop over nodes has written when it ends, and the fault that ended it, if any: each
line is written before the next node is looked at. -/
def written (item : CStr → CStr → List UInt8) : List KeyNode → List UInt8 × Option Fault
  | [] => ([], none)
  | keyNode :: rest =>
    match keyNode.value with
    | some value =>
      let r := written item rest
      (item keyNode.key value ++ r.1, r.2)
    | none => ([], some .null)

/-- What `kvs_show` adds to the output file. -/
def showFile (ht : HashTable) : List UInt8 × Option Fault := written showItem (nodes ht)

/-- What `kvs_backup` leaves in the backup file. -/
def backupFile (ht : HashTable) : List UInt8 × Option Fault := written backupItem (nodes ht)

/-- The nodes in front of the first one without a value. -/
def reached (ns : List KeyNode) : List KeyNode :=
  ns.takeWhile fun keyNode => !decide (Valueless keyNode)

theorem written_eq (item : CStr → CStr → List UInt8) (ns : List KeyNode) :
    written item ns = ((reached ns).flatMap (printed item),
      if ∃ keyNode ∈ ns, Valueless keyNode then some .null else none) := by
  induction ns with
  | nil => simp [written, reached]
  | cons keyNode ns ih =>
    cases hv : keyNode.value with
    | none => simp [written, reached, Valueless, hv]
    | some value =>
      have hlost : (∃ n ∈ keyNode :: ns, Valueless n) ↔ ∃ n ∈ ns, Valueless n := by
        simp [Valueless, hv]
      rw [written, hv]
      simp only [ih, hlost]
      simp [reached, printed, Valueless, hv]

theorem reached_eq {ns : List KeyNode} (h : ¬ ∃ keyNode ∈ ns, Valueless keyNode) :
    reached ns = ns := by
  refine List.takeWhile_eq_self_iff.mpr fun keyNode hn => ?_
  simpa using fun hv => h ⟨keyNode, hn, hv⟩

/-- The file of a call that does not fault is the text that the call returns. -/
theorem kvsShow_eq_file (ht : HashTable) :
    kvsShow ht = match showFile ht with
      | (out, none) => .ok out
      | (_, some f) => .error f := by
  rw [kvsShow_eq, showFile, written_eq]
  split_ifs with hlost
  · rfl
  · rw [reached_eq hlost]

theorem kvsBackup_eq_file (ht : HashTable) :
    kvsBackup ht = match backupFile ht with
      | (out, none) => .ok out
      | (_, some f) => .error f := by
  rw [kvsBackup_eq, backupFile, written_eq]
  split_ifs with hlost
  · rfl
  · rw [reached_eq hlost]

/-- A backup has the bytes of a SHOW exactly when no pair that they reach has more than
34 bytes; a value that was lost ends both. -/
theorem backupFile_eq_showFile_iff (ht : HashTable) :
    backupFile ht = showFile ht ↔ ∀ keyNode ∈ reached (nodes ht), ∀ value,
      keyNode.value = some value → keyNode.key.length + value.length ≤ 34 := by
  rw [backupFile, showFile, written_eq, written_eq, Prod.mk.injEq, and_iff_left rfl,
    flatMap_eq_iff fun n _ => printed_backup_le n]
  exact forall₂_congr fun n _ => printed_eq_iff n

/-- Every key and value of the table, in its whole line. -/
def KeptInFull (ht : HashTable) (out : List UInt8) : Prop :=
  ∃ pairs : List (CStr × CStr),
    (nodes ht).map (fun keyNode => (keyNode.key, keyNode.value)) =
      pairs.map (fun p => (p.1, some p.2)) ∧
    out = pairs.flatMap fun p => pairLine p.1 p.2

/-- The nodes are those of a list of pairs exactly when each of them has a value. -/
theorem exists_pairs_iff {ns : List KeyNode} :
    (∃ pairs : List (CStr × CStr), ns.map (fun keyNode => (keyNode.key, keyNode.value)) =
      pairs.map fun p => (p.1, some p.2)) ↔ ¬ ∃ keyNode ∈ ns, Valueless keyNode := by
  constructor
  · rintro ⟨pairs, hpairs⟩ ⟨keyNode, hn, hv⟩
    have hmem : (keyNode.key, keyNode.value) ∈ pairs.map fun p => (p.1, some p.2) :=
      hpairs ▸ List.mem_map_of_mem hn
    obtain ⟨p, -, hp⟩ := List.mem_map.mp hmem
    rw [hv] at hp
    cases (Prod.mk.inj hp).2
  · intro h
    refine ⟨ns.map fun n => (n.key, n.value.getD n.key), ?_⟩
    rw [List.map_map]
    refine List.map_congr_left fun n hn => ?_
    obtain ⟨v, hv⟩ := Option.ne_none_iff_exists'.mp fun hv => h ⟨n, hn, hv⟩
    simp [hv]

/-- Where no line is cut off, the lines printed are the whole ones. -/
theorem flatMap_printed_backup {ns : List KeyNode} {pairs : List (CStr × CStr)}
    (hpairs : ns.map (fun keyNode => (keyNode.key, keyNode.value)) =
      pairs.map fun p => (p.1, some p.2))
    (hfits : ∀ p ∈ pairs, p.1.length + p.2.length ≤ 34) :
    ns.flatMap (printed backupItem) = pairs.flatMap fun p => pairLine p.1 p.2 := by
  have hns : ns.flatMap (printed backupItem) =
      (ns.map fun n => (n.key, n.value)).flatMap fun q =>
        (q.2.map (backupItem q.1)).getD [] := by
    rw [List.flatMap_map]
    rfl
  rw [hns, hpairs, List.flatMap_map]
  refine List.flatMap_congr fun p hp => ?_
  have hlen := length_pairLine p.1 p.2
  have hle := hfits p hp
  rw [Option.map_some, Option.getD_some, backupItem_eq,
    List.take_of_length_le (by simp only [maxStringSize]; omega)]

/-- A backup is that of SHOW with every key and value in full exactly when no value was lost and
no pair has more than 34 bytes. -/
theorem backup_keptInFull_iff (ht : HashTable) :
    (backupFile ht = showFile ht ∧ KeptInFull ht (backupFile ht).1) ↔
      ∀ keyNode ∈ nodes ht, ∃ value,
        keyNode.value = some value ∧ keyNode.key.length + value.length ≤ 34 := by
  rw [backupFile_eq_showFile_iff]
  constructor
  · rintro ⟨hfits, pairs, hpairs, -⟩ keyNode hn
    have hlost := exists_pairs_iff.mp ⟨pairs, hpairs⟩
    rw [reached_eq hlost] at hfits
    obtain ⟨value, hv⟩ := Option.ne_none_iff_exists'.mp fun hv => hlost ⟨keyNode, hn, hv⟩
    exact ⟨value, hv, hfits keyNode hn value hv⟩
  · intro h
    have hlost : ¬ ∃ keyNode ∈ nodes ht, Valueless keyNode := by
      rintro ⟨keyNode, hn, hv⟩
      obtain ⟨value, hv', -⟩ := h keyNode hn
      rw [hv] at hv'
      cases hv'
    obtain ⟨pairs, hpairs⟩ := exists_pairs_iff.mpr hlost
    refine ⟨fun keyNode hn value hv => ?_, pairs, hpairs, ?_⟩
    · rw [reached_eq hlost] at hn
      obtain ⟨value', hv', hle⟩ := h keyNode hn
      obtain rfl := Option.some.inj (hv'.symm.trans hv)
      exact hle
    · rw [backupFile, written_eq, reached_eq hlost]
      refine flatMap_printed_backup hpairs fun p hp => ?_
      have hmem : (p.1, some p.2) ∈ (nodes ht).map fun n => (n.key, n.value) :=
        hpairs ▸ List.mem_map.mpr ⟨p, hp, rfl⟩
      obtain ⟨n, hn, he⟩ := List.mem_map.mp hmem
      obtain ⟨value, hv, hle⟩ := h n hn
      obtain ⟨hkey, hvalue⟩ := Prod.mk.inj he
      obtain rfl := Option.some.inj (hv.symm.trans hvalue)
      exact hkey ▸ hle

/-- A pair of 20 and 20 bytes: the backup lacks the end of its line. -/
def longPair : CStr × CStr :=
  (⟨List.replicate 20 (Jobs.byte 'a'), by decide⟩, ⟨List.replicate 20 (Jobs.byte 'b'), by decide⟩)

def longJob : List UInt8 :=
  chars ['W', 'R', 'I', 'T', 'E', ' ', '[', '('] ++ longPair.1.bytes ++ chars [','] ++
    longPair.2.bytes ++ chars [')', ']', '\n']

theorem backupFile_ne_showFile :
    Jobs.jobCommands [] longJob = [.write [longPair]] ∧
      ∃ ht, kvsWrite createHashTable [(longPair, .ok)] = .ok ht ∧
        backupFile ht ≠ showFile ht := by
  refine ⟨by decide +kernel, _, rfl, ?_⟩
  decide +kernel

end IstKvs.Backups
