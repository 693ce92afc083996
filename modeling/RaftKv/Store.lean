import RaftKv.Codec
import RaftKv.Slots

/-! The key-value store of `src/kv_store.cpp` is a map of at most 4096 keys: what `kv_apply` does to
the slots is an update of the map, and the refusals are those of a full map and of texts that are
no tokens. -/

namespace RaftKv

open Function Slots Stdio

def KvItem.slot (item : KvItem) : Option (Text × Text) :=
  if item.used then some (item.key, item.value) else none

namespace KvStore

def slots (store : KvStore) : List (Option (Text × Text)) := store.items.map KvItem.slot

/-- The map that the slots hold. -/
def entries (store : KvStore) : Text → Option Text := lookup store.slots

/-- The used slots hold distinct keys, which are valid, with values that fit, and `count` counts
them. -/
structure WellFormed (store : KvStore) : Prop where
  distinct : Distinct store.slots
  valid_key : ∀ item ∈ store.items, item.used = true → isValidToken item.key raftMaxKey = true
  valid_value : ∀ item ∈ store.items, item.used = true →
    isValidToken item.value raftMaxValue = true
  count : store.count = store.items.countP fun item => item.used

/-- What `kv_apply` refuses: an invalid key, an operation that is none, an invalid value to set, and
a new key when all slots are used. -/
def Refuses (store : KvStore) (op : KvOp) (key value : Text) : Prop :=
  isValidToken key raftMaxKey = false ∨ (op ≠ .set ∧ op ≠ .del) ∨
    (op = .set ∧ isValidToken value raftMaxValue = false) ∨
    (op = .set ∧ store.entries key = none ∧
      (store.items.countP fun item => item.used) = raftMaxLog)

end KvStore

variable {store : KvStore} {op : KvOp} {key value : Text}

/-! ### The slots -/

theorem slot_eq_some {item : KvItem} :
    item.slot = some (key, value) ↔ item.used = true ∧ item.key = key ∧ item.value = value := by
  cases h : item.used <;> simp [KvItem.slot, h]

theorem getElem?_slots {i : ℕ} :
    store.slots[i]? = some (some (key, value)) ↔
      ∃ item, store.items[i]? = some item ∧ item.used = true ∧ item.key = key ∧
        item.value = value := by
  rw [KvStore.slots, List.getElem?_map, Option.map_eq_some_iff]
  simp only [slot_eq_some]

theorem slots_setItem (i : ℕ) (item : KvItem) :
    (store.setItem i item).slots = store.slots.set i item.slot :=
  List.map_set

theorem lookup_slots (items : List KvItem) (key : Text) :
    lookup (items.map KvItem.slot) key =
      (items.find? fun item => item.used && item.key == key).map (·.value) := by
  induction items with
  | nil => rfl
  | cons item items ih =>
    rw [lookup] at ih
    rw [lookup, List.map_cons, List.findSome?_cons]
    cases hused : item.used with
    | false =>
      rw [List.find?_cons_of_neg (by simp [hused])]
      simpa [KvItem.slot, hused] using ih
    | true =>
      by_cases hkey : item.key = key
      · rw [List.find?_cons_of_pos (by simp [hused, hkey])]
        simp [KvItem.slot, hused, hkey]
      · rw [List.find?_cons_of_neg (by simp [hkey])]
        simpa [KvItem.slot, hused, hkey] using ih

/-- The scan stops at a used slot with the key. -/
theorem kvScan_found {items : List KvItem} {i j : ℕ} {free f : Option ℕ}
    (h : kvScan key items i free = (some j, f)) :
    ∃ k item, j = i + k ∧ items[k]? = some item ∧ item.used = true ∧ item.key = key := by
  induction items generalizing i free with
  | nil => cases h
  | cons item items ih =>
    rw [kvScan] at h
    split at h
    · rename_i hmatch
      obtain rfl : i = j := Option.some.inj (Prod.mk.inj h).1
      obtain ⟨hused, hkey⟩ := Bool.and_eq_true_iff.mp hmatch
      exact ⟨0, item, rfl, rfl, hused, by simpa using hkey⟩
    · obtain ⟨k, found, rfl, hget, hfound⟩ := ih h
      exact ⟨k + 1, found, by omega, hget, hfound⟩

/-- A scan that does not find the key ends with the first free slot, when there is one. -/
theorem kvScan_absent {items : List KvItem} {i : ℕ} {free f : Option ℕ}
    (h : kvScan key items i free = (none, f)) :
    (∀ item ∈ items, item.used = true → item.key ≠ key) ∧ (∀ j ∈ free, f = some j) ∧
      (free = none → (f = none ∧ ∀ item ∈ items, item.used = true) ∨
        ∃ k item, f = some (i + k) ∧ items[k]? = some item ∧ item.used = false) := by
  induction items generalizing i free with
  | nil =>
    obtain rfl : free = f := (Prod.mk.inj h).2
    exact ⟨by simp, fun j hj => hj, fun hnone => Or.inl ⟨hnone, by simp⟩⟩
  | cons item items ih =>
    rw [kvScan] at h
    split at h
    · cases h
    · rename_i hmiss
      obtain ⟨hkeys, hkeep, hfree⟩ := ih h
      have hne : item.used = true → item.key ≠ key := by
        intro hused hkey
        exact hmiss (by simp [hused, hkey])
      refine ⟨List.forall_mem_cons.mpr ⟨hne, hkeys⟩, ?_, ?_⟩
      · intro j hj
        obtain rfl : free = some j := hj
        exact hkeep j (by simp)
      · intro hnone
        cases hused : item.used with
        | false =>
          rw [hnone, if_pos ⟨rfl, hused⟩] at hkeep
          exact Or.inr ⟨0, item, hkeep i rfl, rfl, hused⟩
        | true =>
          rw [hnone, hused, if_neg (by simp)] at hfree
          rcases hfree rfl with ⟨hf, hall⟩ | ⟨k, found, hf, hget, hfound⟩
          · exact Or.inl ⟨hf, List.forall_mem_cons.mpr ⟨hused, hall⟩⟩
          · exact Or.inr ⟨k + 1, found, by rw [hf]; congr 1; omega, hget, hfound⟩

theorem entries_eq_none :
    store.entries key = none ↔ ∀ item ∈ store.items, item.used = true → item.key ≠ key := by
  rw [KvStore.entries, lookup_eq_none]
  constructor
  · intro hnone item hitem hused hkey
    obtain ⟨i, hi⟩ := List.mem_iff_getElem?.mp hitem
    exact hnone i item.value (getElem?_slots.mpr ⟨item, hi, hused, hkey, rfl⟩)
  · intro hall i v hi
    obtain ⟨item, hget, hused, hkey, -⟩ := getElem?_slots.mp hi
    exact hall item (List.mem_of_getElem? hget) hused hkey

/-! ### One call -/

namespace KvStore.WellFormed

variable (h : store.WellFormed)
include h

/-- An item is written to the slot of its key, or to a free slot when the key has none. -/
theorem setItem {i : ℕ} {old item : KvItem} (hget : store.items[i]? = some old)
    (hkey : isValidToken key raftMaxKey = true) (hvalue : isValidToken value raftMaxValue = true)
    (hitem : item = ⟨key, value, true⟩) (mine : old.used = true → old.key = key)
    (only : ∀ j item, store.items[j]? = some item → item.used = true → item.key = key → j = i)
    (count : ℕ) (hcount : count = store.count + if old.used then 0 else 1) :
    { store.setItem i item with count := count }.WellFormed ∧
      { store.setItem i item with count := count }.entries =
        update store.entries key (some value) := by
  have hlt := (List.getElem?_eq_some_iff.mp hget).1
  have honly : ∀ (j : ℕ) (u : Text), store.slots[j]? = some (some (key, u)) → j = i := by
    intro j u hj
    obtain ⟨found, hfound, hused, hk, -⟩ := getElem?_slots.mp hj
    exact only j found hfound hused hk
  have hslot : item.slot = some (key, value) := by rw [hitem]; rfl
  have hslots : (store.setItem i item).slots = store.slots.set i (some (key, value)) := by
    rw [slots_setItem, hslot]
  have mem : ∀ other ∈ (store.setItem i item).items, other = item ∨ other ∈ store.items := by
    intro other hother
    exact (List.mem_or_eq_of_mem_set hother).symm
  refine ⟨⟨?_, ?_, ?_, ?_⟩, ?_⟩
  · exact hslots ▸ h.distinct.set honly
  · intro other hother hused
    rcases mem other hother with rfl | hother
    · rw [hitem]
      exact hkey
    · exact h.valid_key other hother hused
  · intro other hother hused
    rcases mem other hother with rfl | hother
    · rw [hitem]
      exact hvalue
    · exact h.valid_value other hother hused
  · have hset := List.countP_set (p := fun item : KvItem => item.used) (a := item) hlt
    have hold : store.items[i] = old := (List.getElem?_eq_some_iff.mp hget).2
    have hused : item.used = true := by rw [hitem]
    rw [hold, hused] at hset
    simp only [if_true] at hset
    rw [hcount, h.count]
    refine Eq.trans ?_ hset.symm
    cases hold' : old.used with
    | false => simp
    | true =>
      have hpos : 0 < store.items.countP fun item => item.used :=
        List.countP_pos_iff.mpr ⟨old, List.mem_of_getElem? hget, hold'⟩
      simp only [if_true]
      omega
  · change lookup (store.setItem i item).slots = _
    rw [hslots]
    apply lookup_set h.distinct (by simpa [KvStore.slots] using hlt) honly
    rintro ⟨k, v⟩ hi
    obtain ⟨found, hfound, hused, hk, -⟩ := getElem?_slots.mp hi
    obtain rfl := Option.some.inj (hget.symm.trans hfound)
    exact hk.symm.trans (mine hused)

/-- The slot of a key is cleared. -/
theorem clearItem {i : ℕ} {old : KvItem} (hget : store.items[i]? = some old)
    (hused : old.used = true) (hkey : old.key = key) :
    { store.setItem i KvItem.zero with count := store.count - 1 }.WellFormed ∧
      { store.setItem i KvItem.zero with count := store.count - 1 }.entries =
        update store.entries key none := by
  have hlt := (List.getElem?_eq_some_iff.mp hget).1
  have hslots : (store.setItem i KvItem.zero).slots = store.slots.set i none := slots_setItem ..
  have mem : ∀ other ∈ (store.setItem i KvItem.zero).items, other.used = true →
      other ∈ store.items := by
    intro other hother hother'
    rcases List.mem_or_eq_of_mem_set hother with hother | rfl
    · exact hother
    · cases hother'
  refine ⟨⟨?_, ?_, ?_, ?_⟩, ?_⟩
  · exact hslots ▸ h.distinct.clear
  · exact fun other hother hu => h.valid_key other (mem other hother hu) hu
  · exact fun other hother hu => h.valid_value other (mem other hother hu) hu
  · have hset := List.countP_set (p := fun item : KvItem => item.used) (a := KvItem.zero) hlt
    have hold : store.items[i] = old := (List.getElem?_eq_some_iff.mp hget).2
    rw [hold, hused] at hset
    refine Eq.trans ?_ hset.symm
    rw [h.count]
    rfl
  · change lookup (store.setItem i KvItem.zero).slots = _
    rw [hslots]
    exact lookup_clear h.distinct (getElem?_slots.mpr ⟨old, hget, hused, hkey, rfl⟩)

/-- A used slot with a key is the only one. -/
theorem only {i j : ℕ} {a b : KvItem} (ha : store.items[i]? = some a) (hused : a.used = true)
    (hkey : a.key = key) (hb : store.items[j]? = some b) (hused' : b.used = true)
    (hkey' : b.key = key) : j = i :=
  h.distinct j i key _ _ (getElem?_slots.mpr ⟨b, hb, hused', hkey', rfl⟩)
    (getElem?_slots.mpr ⟨a, ha, hused, hkey, rfl⟩)

end KvStore.WellFormed

theorem copyText_of_valid {text : Text} {m : ℕ} (h : isValidToken text (m + 1) = true) :
    copyText (m + 1) text = text :=
  copyText_of_isToken (isToken_of_isValidToken h)

/-- The call returned 0 and wrote `v` for the key in the map. -/
def Updates (store : KvStore) (result : ℤ × KvStore) (key : Text) (v : Option Text) : Prop :=
  result.1 = 0 ∧ result.2.WellFormed ∧ result.2.entries = update store.entries key v

theorem kvApply_del (hkey : isValidToken key raftMaxKey = true) :
    kvApply store .del key value = match kvScan key store.items 0 none with
      | (some i, _) => (0, { store.setItem i KvItem.zero with count := store.count - 1 })
      | (none, _) => (0, store) := by
  rcases hscan : kvScan key store.items 0 none with ⟨_ | i, free⟩ <;> simp [kvApply, hkey, hscan]

theorem kvApply_set (hkey : isValidToken key raftMaxKey = true)
    (hvalue : isValidToken value raftMaxValue = true) :
    kvApply store .set key value = match kvScan key store.items 0 none with
      | (some i, _) =>
        let item := store.items.getD i KvItem.zero
        (0, store.setItem i { item with value := copyText raftMaxValue value })
      | (none, none) => (-4, store)
      | (none, some i) =>
        (0, { store.setItem i ⟨copyText raftMaxKey key, copyText raftMaxValue value, true⟩ with
              count := store.count + 1 }) := by
  rcases hscan : kvScan key store.items 0 none with ⟨_ | i, _ | j⟩ <;>
    simp [kvApply, hkey, hvalue, hscan]

theorem updates_del (h : store.WellFormed) (hkey : isValidToken key raftMaxKey = true) :
    Updates store (kvApply store .del key value) key none := by
  rw [kvApply_del hkey]
  split
  · rename_i i _ hscan
    obtain ⟨k, item, rfl, hget, hused, hitem⟩ := kvScan_found hscan
    rw [Nat.zero_add]
    exact ⟨rfl, h.clearItem hget hused hitem⟩
  · rename_i hscan
    refine ⟨rfl, h, ?_⟩
    rw [← entries_eq_none.mpr (kvScan_absent hscan).1, update_eq_self]

/-- A valid `SET` writes to the slot of the key or to a free slot, or the map is full. -/
theorem updates_set (h : store.WellFormed) (hkey : isValidToken key raftMaxKey = true)
    (hvalue : isValidToken value raftMaxValue = true) :
    (kvApply store .set key value = (-4, store) ∧ store.entries key = none ∧
      (store.items.countP fun item => item.used) = raftMaxLog) ∨
    (Updates store (kvApply store .set key value) key (some value) ∧
      ¬(store.entries key = none ∧
        (store.items.countP fun item => item.used) = raftMaxLog)) := by
  have hk := copyText_of_valid (m := 63) hkey
  have hv := copyText_of_valid (m := 255) hvalue
  rw [kvApply_set hkey hvalue]
  split
  · rename_i i _ hscan
    obtain ⟨k, item, rfl, hget, hused, hitem⟩ := kvScan_found hscan
    rw [Nat.zero_add, List.getD_eq_getElem?_getD, hget, Option.getD_some]
    refine Or.inr ⟨⟨rfl, ?_⟩, ?_⟩
    · refine h.setItem hget hkey hvalue ?_ (fun _ => hitem) ?_ store.count (by simp [hused])
      · rw [hitem, hused]
        exact congrArg (KvItem.mk key · true) hv
      · exact fun j b hb hub hkb => h.only hget hused hitem hb hub hkb
    · rintro ⟨habsent, -⟩
      exact entries_eq_none.mp habsent item (List.mem_of_getElem? hget) hused hitem
  · rename_i hscan
    obtain ⟨hkeys, -, hfree⟩ := kvScan_absent hscan
    rcases hfree rfl with ⟨-, hall⟩ | ⟨k, item, hnone, -⟩
    · refine Or.inl ⟨rfl, entries_eq_none.mpr hkeys, ?_⟩
      rw [List.countP_eq_length.mpr hall, store.length_items]
    · cases hnone
  · rename_i i hscan
    obtain ⟨hkeys, -, hfree⟩ := kvScan_absent hscan
    rcases hfree rfl with ⟨hnone, -⟩ | ⟨k, item, hsome, hget, hused⟩
    · cases hnone
    · obtain rfl : i = k := by simpa using hsome
      refine Or.inr ⟨⟨rfl, ?_⟩, ?_⟩
      · refine h.setItem hget hkey hvalue ?_ ?_ ?_ _ (by simp [hused])
        · exact congrArg₂ (KvItem.mk · · true) hk hv
        · rw [hused]
          exact fun hf => absurd hf (by simp)
        · exact fun j b hb hub hkb => absurd hkb (hkeys b (List.mem_of_getElem? hb) hub)
      · rintro ⟨-, hfull⟩
        rw [← store.length_items] at hfull
        rw [List.countP_eq_length.mp hfull item (List.mem_of_getElem? hget)] at hused
        cases hused

/-- A call is refused and leaves the store as it is, or it updates the map. -/
theorem kvApply_cases (h : store.WellFormed) (op : KvOp) (key value : Text) :
    ((kvApply store op key value).1 < 0 ∧ store.Refuses op key value ∧
      (kvApply store op key value).2 = store) ∨
    (Updates store (kvApply store op key value) key (if op = .set then some value else none) ∧
      ¬store.Refuses op key value) := by
  cases hkey : isValidToken key raftMaxKey with
  | false =>
    refine Or.inl ⟨?_, Or.inl hkey, ?_⟩ <;> simp [kvApply, hkey]
  | true =>
    cases op with
    | none =>
      refine Or.inl ⟨?_, Or.inr (Or.inl (by simp)), ?_⟩ <;> simp [kvApply, hkey]
    | del =>
      refine Or.inr ⟨updates_del h hkey, ?_⟩
      simp [KvStore.Refuses, hkey]
    | set =>
      cases hvalue : isValidToken value raftMaxValue with
      | false =>
        refine Or.inl ⟨?_, Or.inr (Or.inr (Or.inl ⟨rfl, hvalue⟩)), ?_⟩ <;>
          simp [kvApply, hkey, hvalue]
      | true =>
        rcases updates_set h hkey hvalue with ⟨heq, hfull⟩ | ⟨hup, hroom⟩
        · rw [heq]
          exact Or.inl ⟨by norm_num, Or.inr (Or.inr (Or.inr ⟨rfl, hfull⟩)), rfl⟩
        · refine Or.inr ⟨hup, ?_⟩
          simpa [KvStore.Refuses, hkey, hvalue] using hroom

theorem wellFormed_zero : KvStore.zero.WellFormed := by
  have hslots : KvStore.zero.slots = List.replicate raftMaxLog none := List.map_replicate
  have free : ∀ item ∈ KvStore.zero.items, item.used = false := by
    intro item hitem
    rw [(List.mem_replicate.mp hitem).2]
    rfl
  refine ⟨hslots ▸ distinct_replicate _, ?_, ?_, ?_⟩
  · intro item hitem hused
    rw [free item hitem] at hused
    cases hused
  · intro item hitem hused
    rw [free item hitem] at hused
    cases hused
  · exact (List.countP_eq_zero.mpr fun item hitem => by simp [free item hitem]).symm

/-! ### Sequences of calls -/

/-- The arguments of a call of `kv_apply`. -/
structure Call where
  op : KvOp
  key : Text
  value : Text

/-- The store after some calls, and the calls with the values they returned. -/
def runCalls : KvStore → List Call → KvStore × List (Call × ℤ)
  | store, [] => (store, [])
  | store, c :: calls =>
    let (result, store) := kvApply store c.op c.key c.value
    let (store, results) := runCalls store calls
    (store, (c, result) :: results)

theorem runCalls_cons (store : KvStore) (c : Call) (calls : List Call) :
    runCalls store (c :: calls) =
      ((runCalls (kvApply store c.op c.key c.value).2 calls).1,
        (c, (kvApply store c.op c.key c.value).1) ::
          (runCalls (kvApply store c.op c.key c.value).2 calls).2) := rfl

/-- The value of the last successful `SET` of a key that no successful `DEL` of it follows; `found`
is the one before these calls. -/
def lastSet (key : Text) : List (Call × ℤ) → Option Text → Option Text
  | [], found => found
  | (c, result) :: results, found =>
    lastSet key results
      (if result = 0 ∧ c.key = key then if c.op = .set then some c.value else none else found)

/-- A run keeps the store well formed, and its map has the last values set. -/
theorem runCalls_entries (h : store.WellFormed) (calls : List Call) :
    (runCalls store calls).1.WellFormed ∧ ∀ key,
      (runCalls store calls).1.entries key =
        lastSet key (runCalls store calls).2 (store.entries key) := by
  induction calls generalizing store with
  | nil => exact ⟨h, fun key => rfl⟩
  | cons c calls ih =>
    rw [runCalls_cons]
    simp only [lastSet]
    rcases kvApply_cases h c.op c.key c.value with ⟨hneg, -, hsame⟩ | ⟨⟨hzero, hwf, hmap⟩, -⟩
    · obtain ⟨h1, h2⟩ := ih h
      rw [hsame]
      refine ⟨h1, fun key => ?_⟩
      rw [h2, if_neg (by omega)]
    · obtain ⟨h1, h2⟩ := ih hwf
      refine ⟨h1, fun key => ?_⟩
      rw [h2, hmap, hzero]
      congr 1
      by_cases hk : c.key = key
      · have hcond : (0 : ℤ) = 0 ∧ c.key = key := ⟨rfl, hk⟩
        rw [if_pos hcond, ← hk, update_self]
      · rw [update_of_ne (fun hc => hk hc.symm), if_neg (fun hc => hk hc.2)]

theorem kvGet_eq (h : store.WellFormed) {outSize : ℕ} (hkey : isValidToken key raftMaxKey = true)
    (hsize : raftMaxValue ≤ outSize) :
    kvGet store key outSize = (store.entries key).elim (.error (-1)) .ok := by
  have hpos : outSize ≠ 0 := by
    simp only [raftMaxValue] at hsize
    omega
  rw [KvStore.entries, KvStore.slots, lookup_slots, kvGet, if_neg (by simp [hkey, hpos])]
  split
  · rename_i item hfind
    rw [hfind, Option.map_some, Option.elim_some]
    have hused := List.find?_some hfind
    rw [Bool.and_eq_true_iff] at hused
    have hfits := (isToken_of_isValidToken
      (h.valid_value item (List.mem_of_find?_eq_some hfind) hused.1)).fits
    rw [copyText, List.take_of_length_le (by simp only [raftMaxValue] at hsize; omega)]
  · rename_i hfind
    rw [hfind]
    rfl

theorem entries_zero (key : Text) : KvStore.zero.entries key = none := by
  rw [entries_eq_none]
  intro item hitem hused
  rw [(List.mem_replicate.mp hitem).2] at hused
  cases hused

/-- After any calls on the zeroed store: the used slots hold distinct valid keys, `count` is their
number, `kv_get` gives the value last set, and `kv_apply` refuses, without a change, what a map of
4096 keys has to refuse. -/
theorem store_refines_map (calls : List Call) :
    let store := (runCalls KvStore.zero calls).1
    let results := (runCalls KvStore.zero calls).2
    (∀ (i j : ℕ) (a b : KvItem), store.items[i]? = some a → store.items[j]? = some b →
      a.used = true → b.used = true → a.key = b.key → i = j) ∧
    (∀ item ∈ store.items, item.used = true → isValidToken item.key raftMaxKey = true) ∧
    store.count = (store.items.countP fun item => item.used) ∧
    (∀ key outSize, isValidToken key raftMaxKey = true → raftMaxValue ≤ outSize →
      kvGet store key outSize = (lastSet key results none).elim (.error (-1)) .ok) ∧
    ∀ op key value,
      ((kvApply store op key value).1 < 0 ↔
        isValidToken key raftMaxKey = false ∨ (op ≠ .set ∧ op ≠ .del) ∨
        (op = .set ∧ isValidToken value raftMaxValue = false) ∨
        (op = .set ∧ lastSet key results none = none ∧
          (store.items.countP fun item => item.used) = raftMaxLog)) ∧
      ((kvApply store op key value).1 < 0 → (kvApply store op key value).2 = store) := by
  intro store results
  obtain ⟨h, hmap⟩ := runCalls_entries wellFormed_zero calls
  change store.WellFormed at h
  change ∀ key, store.entries key = lastSet key results (KvStore.zero.entries key) at hmap
  simp only [entries_zero] at hmap
  refine ⟨?_, h.valid_key, h.count, ?_, ?_⟩
  · intro i j a b ha hb hua hub hkey
    exact h.only hb hub hkey.symm ha hua rfl
  · intro key outSize hkey hsize
    rw [kvGet_eq h hkey hsize, hmap]
  · intro op key value
    rw [← hmap key]
    rcases kvApply_cases h op key value with ⟨hneg, hrefuses, hsame⟩ | ⟨⟨hzero, -⟩, haccepts⟩
    · exact ⟨⟨fun _ => hrefuses, fun _ => hneg⟩, fun _ => hsame⟩
    · exact ⟨⟨fun hneg => absurd hzero hneg.ne, fun hr => absurd hr haccepts⟩,
        fun hneg => absurd hzero hneg.ne⟩

/-- The zeroed store takes a valid key, and `kv_get` gives its value. -/
theorem store_refines_map_set :
    kvGet (runCalls KvStore.zero [⟨.set, bytes "k", bytes "a"⟩]).1 (bytes "k") raftMaxValue =
      .ok (bytes "a") := by
  obtain ⟨-, -, -, hget, -⟩ := store_refines_map [⟨.set, bytes "k", bytes "a"⟩]
  have hzero : (kvApply KvStore.zero .set (bytes "k") (bytes "a")).1 = 0 := by
    rcases @updates_set _ (bytes "k") (bytes "a") wellFormed_zero (by decide) (by decide) with
      ⟨-, -, hfull⟩ | ⟨hup, -⟩
    · rw [← wellFormed_zero.count] at hfull
      have hcount : KvStore.zero.count = 0 := rfl
      rw [hcount, raftMaxLog] at hfull
      omega
    · exact hup.1
  have hlast : lastSet (bytes "k") (runCalls KvStore.zero [⟨.set, bytes "k", bytes "a"⟩]).2 none =
      some (bytes "a") := by
    rw [runCalls_cons, hzero]
    rfl
  rw [hget (bytes "k") raftMaxValue (by decide) le_rfl, hlast]
  rfl

end RaftKv
