import Mathlib.Data.List.Nodup
import Fdfs2qq.Jobschedule.VolumnQueue
import Fdfs2qq.Box.StorageProofs

/-! Volume ids. The number of a volume is written into its id and read back from
it, and each number is below the count of the volumes. -/
namespace Fdfs2qq.Jobschedule
open Box

theorem filter_volumnsidText (n : Nat) : digitsValue ((volumnsidText n).filter isDigit) = n := by
  have digits : (decimal n).filter isDigit = decimal n :=
    List.filter_eq_self.mpr fun c mem => isDigit_of_mem_decimal mem
  have short : (ascii "M0").filter isDigit = [48] := by decide
  have long : (ascii "M").filter isDigit = [] := by decide
  unfold volumnsidText
  split
  · rw [List.filter_append, short, digits, List.singleton_append, digitsValue_zero_cons, digitsValue_decimal]
  · rw [List.filter_append, long, digits, List.nil_append, digitsValue_decimal]

theorem string2int_volumnsidText (fits : n < 2 ^ 31) : string2int (volumnsidText n) = n := by
  have value := filter_volumnsidText n
  rw [string2int, atoi_eq (by omega) (by omega), value]

theorem getVolumnsByObj_decimal (fits : n < 2 ^ 31) : getVolumnsByObj (decimal n) = some (volumnsidText n) := by
  have value : atoiText (decimal n) = n := by
    have digits := digitsValue_decimal n
    rw [atoiText_of_digits fun c mem => isDigit_of_mem_decimal mem, atoi_eq (by omega) (by omega), digits]
  have valid : ¬ ((n : Int) ≤ 0 ∧ decimal n ≠ ascii "0") := by
    rintro ⟨empty, other⟩
    obtain rfl : n = 0 := by omega
    exact other (by decide)
  have small : ((n : Int) ≤ 9) ↔ n ≤ 9 := by omega
  rw [getVolumnsByObj, volumnsidText]
  simp only [value, valid, small, if_false]
  split <;> rfl

theorem volumnsidText_injective (fits : n < 2 ^ 31) (fits' : m < 2 ^ 31)
    (same : volumnsidText n = volumnsidText m) : n = m := by
  have read := string2int_volumnsidText fits
  rw [same, string2int_volumnsidText fits'] at read
  omega

def storePath (conf : Conf) (n : Nat) : Bytes := conf (ascii "store_path" ++ decimal n)

def volumnEntry (conf : Conf) (n : Nat) : Bytes × Bytes := (volumnsidText n, storePath conf n ++ ascii "/data")

/-- `store_path0` to the path before `store_path k` are there. -/
structure Configured (conf : Conf) (k : Nat) : Prop where
  filled : ∀ n < k, storePath conf n ≠ []
  missing : storePath conf k = []

theorem insert_volumnEntry (conf : Conf) (fits : n < 2 ^ 31) :
    Dict.insert ((List.range n).map (volumnEntry conf)) (volumnsidText n) (storePath conf n ++ ascii "/data") =
      (List.range (n + 1)).map (volumnEntry conf) := by
  have absent : Dict.find ((List.range n).map (volumnEntry conf)) (volumnsidText n) = none := by
    rw [Dict.find, List.lookup_eq_none_iff]
    intro entry mem
    obtain ⟨m, below, rfl⟩ := List.mem_map.mp mem
    have less := List.mem_range.mp below
    exact bne_iff_ne.mpr fun same => less.ne (volumnsidText_injective (less.trans fits) fits same.symm)
  rw [Dict.insert, absent, List.range_succ, List.map_append]
  rfl

/-- From any volume on, the loop adds the volumes up to the last. -/
theorem volumnsDictFrom_eq (configured : Configured conf k) (fits : k < 2 ^ 31) (fuel : Nat) :
    ∀ n ≤ k, k < n + fuel → volumnsDictFrom conf fuel n ((List.range n).map (volumnEntry conf)) =
      some ((List.range k).map (volumnEntry conf)) := by
  induction fuel with
  | zero =>
    intro n le more
    omega
  | succ fuel ih =>
    intro n le more
    rw [volumnsDictFrom]
    split
    next empty =>
      have last : n = k := le.eq_or_lt.resolve_right fun less => configured.filled n less empty
      rw [last]
    next nonempty =>
      have less : n < k := lt_of_le_of_ne le fun last => nonempty (last ▸ configured.missing)
      have next := insert_volumnEntry conf (less.trans fits)
      rw [storePath] at next
      simp only [next]
      exact ih (n + 1) less (by omega)

theorem getVolumnsDict_eq (configured : Configured conf k) (fits : k < 2 ^ 31) (enough : k < fuel) :
    getVolumnsDict conf fuel = some ((List.range k).map (volumnEntry conf)) :=
  volumnsDictFrom_eq configured fits fuel 0 (Nat.zero_le k) (by omega)

/-- The ids are distinct, since reading them gives the numbers in order. -/
theorem ids_distinct (fits : k < 2 ^ 31) : (((List.range k).map (volumnEntry conf)).map Prod.fst).Nodup := by
  rw [List.map_map]
  refine List.Nodup.map_on (fun n below m below' same => ?_) List.nodup_range
  rw [List.mem_range] at below below'
  exact volumnsidText_injective (below.trans fits) (below'.trans fits) same

theorem mapM_some {f : α → Option β} {P : β → Prop} {xs : List α} (each : ∀ x ∈ xs, ∃ y, f x = some y ∧ P y) :
    ∃ ys, xs.mapM f = some ys ∧ ∀ y ∈ ys, P y := by
  induction xs with
  | nil => exact ⟨[], rfl, by simp⟩
  | cons x xs ih =>
    obtain ⟨⟨y, here, good⟩, each⟩ := List.forall_mem_cons.mp each
    obtain ⟨ys, later, all⟩ := ih each
    refine ⟨y :: ys, ?_, List.forall_mem_cons.mpr ⟨good, all⟩⟩
    rw [List.mapM_cons, here, later]
    rfl

/-- An object for a folder of a volume below `k`. -/
structure OfVolumn (conf : Conf) (k : Nat) (groupId : Bytes) (info : StorageVolumnObject) : Prop where
  valid : info.isvalid
  group : info.grpid = groupId
  volumn : ∃ n < k, info.volumnid = volumnsidText n ∧ info.volumnstr = storePath conf n ++ ascii "/data"
  folder : info.subdir ≠ [] ∧ boxKvSeperator ∉ info.subdir

theorem storeFolders_text (mem : folder ∈ storeFolders) : boxKvSeperator ∉ folder := by
  have all : ∀ folder ∈ storeFolders, boxKvSeperator ∉ folder := by decide +kernel
  exact all folder mem

theorem getStoreFolderByOrder_spec (fits : k < 2 ^ 31) (below : n < k) (groupId : Bytes) :
    ∃ objects, getStoreFolderByOrder ((List.range k).map (volumnEntry conf)) groupId (volumnsidText n) = some objects ∧
      ∀ info ∈ objects, OfVolumn conf k groupId info := by
  have found : Dict.find ((List.range k).map (volumnEntry conf)) (volumnsidText n) =
      some (storePath conf n ++ ascii "/data") := by
    obtain ⟨before, after, split⟩ := List.append_of_mem (List.mem_range.mpr below)
    rw [Dict.find, split, List.map_append, List.map_cons]
    refine List.lookup_eq_some_iff.mpr ⟨_, _, rfl, fun entry mem => ?_⟩
    obtain ⟨m, inside, rfl⟩ := List.mem_map.mp mem
    have small : m < k := List.mem_range.mp (split ▸ List.mem_append_left _ inside)
    have distinct : (before ++ n :: after).Nodup := split ▸ List.nodup_range
    have other : m ≠ n := (List.nodup_append.mp distinct).2.2 m inside n List.mem_cons_self
    exact bne_iff_ne.mpr fun same => other (volumnsidText_injective (small.trans fits) (below.trans fits) same.symm)
  rw [getStoreFolderByOrder, found]
  refine ⟨_, rfl, fun info mem => ?_⟩
  obtain ⟨first, inFolders, mem⟩ := List.mem_flatMap.mp mem
  obtain ⟨second, inFolders', rfl⟩ := List.mem_map.mp mem
  refine ⟨rfl, rfl, ⟨n, below, rfl, rfl⟩, by simp, ?_⟩
  rw [List.mem_append, List.mem_cons, not_or, not_or]
  exact ⟨storeFolders_text inFolders, by decide, storeFolders_text inFolders'⟩

theorem readyVolumns_spec (fits : k < 2 ^ 31) (conf : Conf) (groupId : Bytes) :
    ∃ v, readyVolumns ((List.range k).map (volumnEntry conf)) groupId = some v ∧
      ∀ info ∈ v, OfVolumn conf k groupId info := by
  have each : ∀ id ∈ (((List.range k).map (volumnEntry conf)).map Prod.fst).mergeSort (· ≤ ·),
      ∃ objects, getStoreFolderByOrder ((List.range k).map (volumnEntry conf)) groupId id = some objects ∧
        ∀ info ∈ objects, OfVolumn conf k groupId info := by
    intro id mem
    rw [List.mem_mergeSort, List.map_map] at mem
    obtain ⟨n, below, rfl⟩ := List.mem_map.mp mem
    exact getStoreFolderByOrder_spec fits (List.mem_range.mp below) groupId
  obtain ⟨lists, listed, all⟩ := mapM_some each
  refine ⟨lists.flatten, by rw [readyVolumns, listed]; rfl, fun info mem => ?_⟩
  obtain ⟨objects, inLists, mem⟩ := List.mem_flatten.mp mem
  exact all objects inLists info mem

theorem readyProducer_eq (volumnsDict : Dict) (groupId : Bytes) : readyProducer volumnsDict groupId =
    (readyVolumns volumnsDict groupId).map (List.map StorageVolumnObject.toText) := by
  rw [readyProducer, readyVolumns, Option.map_map]
  rfl

/-- `volumns_id_int` of an object is the number of its volume. -/
theorem OfVolumn.passes (object : OfVolumn conf k groupId info) (fits : k < 2 ^ 31) : volumnsIdInt info < k := by
  obtain ⟨n, below, id, -⟩ := object.volumn
  have read : volumnsIdInt info = n := by
    rw [volumnsIdInt, id]
    exact string2int_volumnsidText (below.trans fits)
  omega

/-- The object that `WaitProducer` reads has the id of the one that was pushed,
unless the group is empty. -/
theorem OfVolumn.popped {read : StorageVolumnObject} (object : OfVolumn conf k groupId info)
    (named : ∃ c ∈ groupId, c ≠ boxKvSeperator)
    (taken : WaitProducer.popped info.toText = .allocate read) : read.volumnid = info.volumnid := by
  obtain ⟨c, inGroup, other⟩ := named
  obtain ⟨n, -, id, path⟩ := object.volumn
  have freeId : boxKvSeperator ∉ info.volumnid := id ▸ notMem_volumnsidText (by decide) (by decide) n
  have filled : info.volumnid ≠ [] := id ▸ volumnsidText_ne_nil n
  have slashInside : slash ∈ info.volumnstr := by
    rw [path]
    exact List.mem_append_right _ (by decide)
  obtain ⟨g, gs, group⟩ := List.exists_cons_of_ne_nil (split_ne_nil (object.group ▸ inGroup) other)
  obtain ⟨p, ps, paths⟩ := List.exists_cons_of_ne_nil (split_ne_nil slashInside (by decide : slash ≠ boxKvSeperator))
  have pieces : split info.toText boxKvSeperator = g :: (gs ++ info.volumnid :: p :: (ps ++ [info.subdir])) := by
    have text : info.toText = info.grpid ++ boxKvSeperator ::
        (info.volumnid ++ boxKvSeperator :: (info.volumnstr ++ boxKvSeperator :: info.subdir)) := rfl
    rw [text, split_append_cons, split_append_cons, split_append_cons, group, paths, split_single filled freeId,
      split_single object.folder.1 object.folder.2]
    simp
  simp only [WaitProducer.popped] at taken
  split at taken
  next valid =>
    obtain rfl := WaitProducer.allocate.inj taken
    rw [stringToStorageVolumnObject, pieces] at valid ⊢
    split at valid
    next four =>
      have length := congrArg List.length four
      simp only [List.length_cons, List.length_append, List.length_nil] at length
      obtain rfl : gs = [] := List.eq_nil_of_length_eq_zero (by omega)
      obtain rfl : ps = [] := List.eq_nil_of_length_eq_zero (by omega)
      simp only [List.nil_append, List.cons.injEq] at four
      exact four.2.1.symm
    next => cases valid
  next => cases taken

theorem getVolumnsCount_eq {table : Dict} (count : table.length = k) (fits : k < 2 ^ 31) :
    getVolumnsCount table = k := by
  unfold getVolumnsCount
  rw [count]
  exact toInt_of_lt (by omega) (by omega)

/-- The table has the configured volumes under the ids that are also formed from
their numbers and read back to them, and no object that `ReadyProducer` pushes is
turned away by its number, also not as it comes out of the queue. -/
theorem volumns_named (conf : Conf) (k : Nat) (configured : Configured conf k) (fits : k < 2 ^ 31) :
    ∃ table : Dict, (∀ fuel > k, getVolumnsDict conf fuel = some table) ∧ table.length = k ∧
      (∀ n < k, ∃ id, table[n]? = some (id, storePath conf n ++ ascii "/data") ∧
        getVolumnsByObj (decimal n) = some id ∧ string2int id = n ∧
          ∀ info : StorageVolumnObject, info.volumnid = id → volumnsIdInt info = n) ∧
      (table.map Prod.fst).Nodup ∧
      ∀ groupId, ∃ v, readyVolumns table groupId = some v ∧
        readyProducer table groupId = some (v.map StorageVolumnObject.toText) ∧
          ∀ info ∈ v, volumnsIdInt info < getVolumnsCount table ∧
            ∀ read, (∃ c ∈ groupId, c ≠ boxKvSeperator) →
              WaitProducer.popped info.toText = .allocate read → volumnsIdInt read < getVolumnsCount table := by
  refine ⟨(List.range k).map (volumnEntry conf), fun fuel enough => getVolumnsDict_eq configured fits enough,
    by simp, fun n below => ?_, ids_distinct fits, fun groupId => ?_⟩
  · have small := below.trans fits
    refine ⟨volumnsidText n, by simp [below, volumnEntry], getVolumnsByObj_decimal small,
      string2int_volumnsidText small, fun info same => ?_⟩
    rw [volumnsIdInt, same]
    exact string2int_volumnsidText small
  · obtain ⟨v, ready, objects⟩ := readyVolumns_spec fits conf groupId
    refine ⟨v, ready, by rw [readyProducer_eq, ready]; rfl, fun info mem => ?_⟩
    have passes := (objects info mem).passes fits
    rw [getVolumnsCount_eq (by simp) fits]
    refine ⟨passes, fun read named taken => ?_⟩
    have same := (objects info mem).popped named taken
    rwa [volumnsIdInt, same]

/-- Two volumes. -/
theorem volumns_named_pair : ∃ table : Dict,
    getVolumnsDict (fun name => if name ∈ ["store_path0", "store_path1"].map ascii then ascii "/d" else []) 3 =
      some table ∧ table.length = 2 ∧ (table.map Prod.fst).Nodup := by
  obtain ⟨table, built, count, -, distinct, -⟩ := volumns_named
    (fun name => if name ∈ ["store_path0", "store_path1"].map ascii then ascii "/d" else []) 2
    ⟨by decide, by decide⟩ (by decide)
  exact ⟨table, built 3 (by decide), count, distinct⟩

end Fdfs2qq.Jobschedule
