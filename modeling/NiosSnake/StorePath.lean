import NiosSnake.ByteLanes
import NiosSnake.Interconnect
import NiosSnake.Main

/-!
# From a store to the frame buffer

A store instruction of the processor becomes a word write with byte enables; the
decoder picks the slave, and the memory behind the frame buffer merges the enabled
bytes into its word. Stores that aim at the frame buffer do to that memory what
they do to the bytes of the address space; the stores that the decoder sends there
by default do it somewhere else.
-/

namespace NiosSnake

open ByteMemory

inductive StoreSize where
  | mem8
  | mem16
  | mem32
  deriving DecidableEq

def StoreSize.bytes : StoreSize → Nat
  | mem8 => 1
  | mem16 => 2
  | mem32 => 4

structure Store where
  size : StoreSize
  address : U32
  rfB : U32

structure BusWrite where
  dAddress : BitVec 21
  dByteenable : BitVec 4
  dWritedata : U32

namespace Store

/-- `E_st_data`: bytes and halves are repeated over the word. -/
def eStData (s : Store) : U32 :=
  match s.size with
  | .mem8 =>
    let stbData := s.rfB.extractLsb' 0 8
    stbData ++ stbData ++ stbData ++ stbData
  | .mem16 =>
    let sthData := s.rfB.extractLsb' 0 16
    sthData ++ sthData
  | .mem32 => s.rfB

def eMemByteEn (s : Store) : BitVec 4 :=
  let memBaddr := s.address.extractLsb' 0 2
  match s.size with
  | .mem8 => if memBaddr = 0 then 0b0001 else if memBaddr = 1 then 0b0010 else if memBaddr = 2 then 0b0100 else 0b1000
  | .mem16 => if memBaddr = 0 then 0b0011 else if memBaddr = 1 then 0b0011 else if memBaddr = 2 then 0b1100 else 0b1100
  | .mem32 => 0b1111

def bus (s : Store) : BusWrite := ⟨s.address.setWidth 21, s.eMemByteEn, s.eStData⟩

def perform (m : ByteMemory 32) (s : Store) : ByteMemory 32 := m.storeUnit s.size.bytes s.address s.rfB

end Store

/-- `system_frame_buffer`, port s1. Its memory has words up to `frameBufferWords`; the addresses above
are kept here, and nothing is read there. -/
def writeFrameBuffer (ram : BitVec 17 → U32) (b : BusWrite) : BitVec 17 → U32 :=
  if Routed b.dAddress .frameBuffer then
    fun a => if a = avAddress 17 b.dAddress then mergeBytes b.dByteenable b.dWritedata (ram a) else ram a
  else ram

def frameBufferWords : Nat := 70536

def Store.send (ram : BitVec 17 → U32) (s : Store) : BitVec 17 → U32 := writeFrameBuffer ram s.bus

def wordAddress (a : BitVec 17) : U32 := frameBufferBase + BitVec.ofNat 32 (4 * a.toNat)

def HoldsBytes (ram : BitVec 17 → U32) (mem : ByteMemory 32) : Prop :=
  ∀ a : BitVec 17, a.toNat < frameBufferWords → ram a = word mem (wordAddress a)

/-- A store to `a` reaches no word of the frame buffer but the one at `a`. -/
def Plain (a : U32) : Prop := a.toNat < 2 ^ 21 ∧ (Routed (a.setWidth 21) .frameBuffer →
  Slave.Range .frameBuffer (a.setWidth 21) ∨ frameBufferWords ≤ (avAddress 17 (a.setWidth 21)).toNat)

instance (s : Slave) (address : BitVec 21) : Decidable (s.Range address) := inferInstanceAs (Decidable (_ ∧ _))

instance (a : U32) : Decidable (Plain a) := inferInstanceAs (Decidable (_ ∧ _))

/-! ## The bytes of a store -/

namespace Store

variable (s : Store) {k : Nat} (hk : k < 4)
include hk

theorem eStData_byte : s.eStData.extractLsb' (8 * k) 8 = s.rfB.extractLsb' (8 * (k % s.size.bytes)) 8 := by
  cases hs : s.size with
  | mem8 =>
    obtain ⟨h₀, h₁, h₂, h₃⟩ := extractLsb'_bytes (s.rfB.extractLsb' 0 8) (s.rfB.extractLsb' 0 8)
      (s.rfB.extractLsb' 0 8) (s.rfB.extractLsb' 0 8)
    simp only [eStData, hs, StoreSize.bytes, Nat.mod_one, Nat.mul_zero]
    rcases (show k = 0 ∨ k = 1 ∨ k = 2 ∨ k = 3 by omega) with rfl | rfl | rfl | rfl
    · exact h₀
    · exact h₁
    · exact h₂
    · exact h₃
  | mem16 =>
    simp only [eStData, hs, StoreSize.bytes, extractLsb'_halves _ hk]
    apply BitVec.eq_of_getLsbD_eq
    intro i hi
    simp [hi, show 8 * (k % 2) + i < 16 by omega]
  | mem32 => simp only [eStData, hs, StoreSize.bytes, Nat.mod_eq_of_lt hk]

theorem eMemByteEn_iff :
    s.eMemByteEn.getLsbD k = true ↔ k / s.size.bytes = s.address.toNat % 4 / s.size.bytes := by
  have hlow : s.address.toNat % 4 = (s.address.extractLsb' 0 2).toNat := by
    rw [BitVec.extractLsb'_toNat, Nat.shiftRight_zero]
  have h8 : ∀ (b : BitVec 2) (k : Fin 4), (if b = 0 then 0b0001#4 else if b = 1 then 0b0010
      else if b = 2 then 0b0100 else 0b1000).getLsbD k.val = true ↔ k.val / 1 = b.toNat / 1 := by decide
  have h16 : ∀ (b : BitVec 2) (k : Fin 4), (if b = 0 then 0b0011#4 else if b = 1 then 0b0011
      else if b = 2 then 0b1100 else 0b1100).getLsbD k.val = true ↔ k.val / 2 = b.toNat / 2 := by decide
  have h32 : ∀ (b : BitVec 2) (k : Fin 4), (0b1111#4).getLsbD k.val = true ↔ k.val / 4 = b.toNat / 4 := by decide
  rw [hlow]
  cases hs : s.size <;> simp only [eMemByteEn, hs, StoreSize.bytes]
  · exact h8 _ ⟨k, hk⟩
  · exact h16 _ ⟨k, hk⟩
  · exact h32 _ ⟨k, hk⟩

end Store

/-! ## One store -/

theorem wordAddress_toNat (a : BitVec 17) : (wordAddress a).toNat = 524288 + 4 * a.toNat := by
  have := a.isLt
  rw [wordAddress, BitVec.toNat_add_of_lt] <;> rw [BitVec.toNat_ofNat, Nat.mod_eq_of_lt (by omega)]
  · rfl
  · show 524288 + _ < _
    omega

theorem byteAddress_toNat (a : BitVec 17) {k : Nat} (hk : k < 4) :
    (wordAddress a + BitVec.ofNat 32 k).toNat = 524288 + 4 * a.toNat + k := by
  have := a.isLt
  rw [BitVec.toNat_add_of_lt] <;> rw [wordAddress_toNat, BitVec.toNat_ofNat, Nat.mod_eq_of_lt (by omega)]
  omega

theorem Plain.reaches_iff {a : U32} (h : Plain a) {b : BitVec 17} (hb : b.toNat < frameBufferWords) :
    Routed (a.setWidth 21) .frameBuffer ∧ b = avAddress 17 (a.setWidth 21) ↔ a.toNat / 4 = 131072 + b.toNat := by
  have hlow : (a.setWidth 21).toNat = a.toNat := by
    rw [BitVec.toNat_setWidth, Nat.mod_eq_of_lt h.1]
  have hav : b = avAddress 17 (a.setWidth 21) ↔ b.toNat = a.toNat / 4 % 2 ^ 17 := by
    rw [← BitVec.toNat_inj, avAddress_toNat, hlow]
  have hrange : Slave.Range .frameBuffer (a.setWidth 21) ↔ 524288 ≤ a.toNat ∧ a.toNat < 1048576 := by
    rw [← hlow]
    exact Iff.rfl
  unfold frameBufferWords at hb
  constructor
  · rintro ⟨hr, hab⟩
    rcases h.2 hr with hin | hout
    · have := hrange.mp hin
      have := hav.mp hab
      omega
    · rw [← hab] at hout
      unfold frameBufferWords at hout
      omega
  · intro hab
    exact ⟨decode_of_range (hrange.mpr (by omega)), hav.mpr (by omega)⟩

/-- **A store and its bus write agree** on the frame buffer. -/
theorem Store.send_holds {ram : BitVec 17 → U32} {mem : ByteMemory 32} (h : HoldsBytes ram mem) {s : Store}
    (hs : Plain s.address) : HoldsBytes (s.send ram) (s.perform mem) := by
  intro b hb
  rw [eq_word_iff]
  intro k hk
  have hold := eq_word_iff.mp (h b hb) k hk
  have hreach := hs.reaches_iff hb
  have hunit : (wordAddress b + BitVec.ofNat 32 k).toNat / s.size.bytes = s.address.toNat / s.size.bytes ↔
      s.address.toNat / 4 = 131072 + b.toNat ∧ k / s.size.bytes = s.address.toNat % 4 / s.size.bytes := by
    rw [byteAddress_toNat b hk]
    cases s.size <;> simp only [StoreSize.bytes] <;> omega
  have hbyte : (wordAddress b + BitVec.ofNat 32 k).toNat % s.size.bytes = k % s.size.bytes := by
    rw [byteAddress_toNat b hk]
    cases s.size <;> simp only [StoreSize.bytes] <;> omega
  have hperform : s.perform mem (wordAddress b + BitVec.ofNat 32 k) =
      if s.address.toNat / 4 = 131072 + b.toNat ∧ k / s.size.bytes = s.address.toNat % 4 / s.size.bytes then
        s.rfB.extractLsb' (8 * (k % s.size.bytes)) 8
      else mem (wordAddress b + BitVec.ofNat 32 k) := by
    rw [Store.perform, storeUnit, hbyte]
    exact if_congr hunit rfl rfl
  rw [hperform, Store.send, writeFrameBuffer]
  by_cases hr : Routed s.bus.dAddress .frameBuffer ∧ b = avAddress 17 s.bus.dAddress
  · rw [if_pos hr.1, if_pos hr.2, extractLsb'_mergeBytes _ _ _ hk, hold]
    have haim := hreach.mp hr
    refine if_congr ?_ (s.eStData_byte hk) rfl
    rw [and_iff_right haim]
    exact s.eMemByteEn_iff hk
  · have haim : ¬ (s.address.toNat / 4 = 131072 + b.toNat ∧
        k / s.size.bytes = s.address.toNat % 4 / s.size.bytes) := fun hc => hr (hreach.mpr hc.1)
    rw [if_neg haim, ← hold]
    by_cases hroute : Routed s.bus.dAddress .frameBuffer
    · rw [if_pos hroute, if_neg fun hb => hr ⟨hroute, hb⟩]
    · rw [if_neg hroute]

/-! ## Any store -/

namespace Store

/-- The frame buffer drops the address bits above its own. -/
def landed (s : Store) : Store := { s with address := frameBufferBase + s.address % 0x80000 }

def land (m : ByteMemory 32) (s : Store) : ByteMemory 32 :=
  if Routed s.bus.dAddress .frameBuffer then s.landed.perform m else m

theorem landed_toNat (s : Store) : s.landed.address.toNat = 524288 + s.address.toNat % 524288 := by
  have hmod : (s.address % 0x80000).toNat = s.address.toNat % 524288 := BitVec.toNat_umod
  rw [landed, BitVec.toNat_add_of_lt] <;> rw [hmod]
  · rfl
  · show 524288 + _ < _
    omega

theorem landed_range (s : Store) : Slave.Range .frameBuffer s.landed.bus.dAddress := by
  have hlow : s.landed.bus.dAddress.toNat = s.landed.address.toNat % 2 ^ 21 := BitVec.toNat_setWidth ..
  rw [Slave.Range, hlow, landed_toNat]
  show 524288 ≤ _ ∧ _ < 1048576
  omega

theorem landed_plain (s : Store) : Plain s.landed.address := by
  refine ⟨?_, fun _ => .inl s.landed_range⟩
  rw [landed_toNat]
  omega

theorem landed_avAddress (s : Store) : avAddress 17 s.landed.bus.dAddress = avAddress 17 s.bus.dAddress := by
  apply BitVec.eq_of_toNat_eq
  simp only [avAddress_toNat, bus, BitVec.toNat_setWidth, landed_toNat]
  omega

theorem landed_eMemByteEn (s : Store) : s.landed.eMemByteEn = s.eMemByteEn := by
  have hlow : s.landed.address.extractLsb' 0 2 = s.address.extractLsb' 0 2 := by
    apply BitVec.eq_of_toNat_eq
    simp only [BitVec.extractLsb'_toNat, Nat.shiftRight_zero, landed_toNat]
    omega
  rw [eMemByteEn, hlow]
  rfl

theorem send_landed {s : Store} (hs : Routed s.bus.dAddress .frameBuffer) (ram : BitVec 17 → U32) :
    s.landed.send ram = s.send ram := by
  have henable : s.landed.bus.dByteenable = s.bus.dByteenable := s.landed_eMemByteEn
  have hdata : s.landed.bus.dWritedata = s.bus.dWritedata := rfl
  rw [send, send, writeFrameBuffer, writeFrameBuffer, if_pos hs, if_pos (decode_of_range s.landed_range),
    landed_avAddress, henable, hdata]

theorem send_lands {ram : BitVec 17 → U32} {mem : ByteMemory 32} (h : HoldsBytes ram mem) (s : Store) :
    HoldsBytes (s.send ram) (s.land mem) := by
  by_cases hs : Routed s.bus.dAddress .frameBuffer
  · rw [land, if_pos hs, ← send_landed hs]
    exact send_holds h s.landed_plain
  · rw [land, if_neg hs, send, writeFrameBuffer, if_neg hs]
    exact h

end Store

/-- **Any sequence of stores**, of whatever widths, to whatever addresses and in whatever order: the memory
behind the frame buffer holds the bytes of those that land there. If each reaches no word of it but the one at
its own address, these are the bytes that the program has written. -/
theorem stores_hold {ram : BitVec 17 → U32} {mem : ByteMemory 32} (h : HoldsBytes ram mem) (stores : List Store) :
    HoldsBytes (stores.foldl Store.send ram) (stores.foldl Store.land mem) ∧
      ((∀ s ∈ stores, Plain s.address) →
        HoldsBytes (stores.foldl Store.send ram) (stores.foldl Store.perform mem)) := by
  constructor
  · exact List.foldl_rel h fun s _ _ _ h => Store.send_lands h s
  · exact fun hplain => List.foldl_rel h fun s hs _ _ h => Store.send_holds h (hplain s hs)

/-! ## Stores over time -/

theorem filterMap_range_get {α : Type} : ∀ (l : List α) {n : Nat}, l.length ≤ n →
    (List.range n).filterMap (fun k => l[k]?) = l
  | [], n, _ => by simp
  | a :: l, n + 1, h => by
    rw [List.range_succ_eq_map, List.filterMap_cons, List.filterMap_map]
    exact congrArg (a :: ·) (filterMap_range_get l (Nat.le_of_succ_le_succ h))

def sentStores (slave : Slave) (stores : Nat → Option Store) (n : Nat) : List Store :=
  ((List.range n).filterMap stores).filter fun s => Routed s.bus.dAddress slave

section
variable {slave : Slave} {stores : Nat → Option Store}

theorem sentStores_quiet {t W : Nat} (h : ∀ k, t ≤ k → k < t + W → ∀ s, stores k = some s →
    ¬ Routed s.bus.dAddress slave) : ∀ k ≤ W, sentStores slave stores (t + k) = sentStores slave stores t
  | 0, _ => rfl
  | k + 1, hk => by
    rw [← sentStores_quiet h k (Nat.le_of_succ_le hk), ← Nat.add_assoc, sentStores, List.range_succ,
      List.filterMap_append, List.filter_append, sentStores, List.append_right_eq_self]
    cases hs : stores (t + k) with
    | none => simp [hs]
    | some s => simpa [hs] using h (t + k) (Nat.le_add_right t k) (by omega) s hs

/-- A slave that takes only its own stores sees only them. -/
theorem foldl_sentStores {α : Type} {f : α → Store → α} (hf : ∀ x s, ¬ Routed s.bus.dAddress slave → f x s = x)
    (x : α) (n : Nat) : ((List.range n).filterMap stores).foldl f x = (sentStores slave stores n).foldl f x := by
  rw [sentStores]
  generalize (List.range n).filterMap stores = l
  induction l generalizing x with
  | nil => rfl
  | cons s l ih =>
    by_cases hs : Routed s.bus.dAddress slave
    · rw [List.filter_cons_of_pos (by simpa using hs), List.foldl_cons, List.foldl_cons, ih]
    · rw [List.filter_cons_of_neg (by simpa using hs), List.foldl_cons, hf x s hs, ih]

theorem sentStores_get {l : List Store} (hsent : ∀ s ∈ l, Routed s.bus.dAddress slave) {n : Nat}
    (hn : l.length ≤ n) : sentStores slave (fun k => l[k]?) n = l := by
  rw [sentStores, filterMap_range_get l hn, List.filter_eq_self]
  simpa using hsent

end

theorem blank_holds : HoldsBytes (fun _ => 0) fun _ => 0 :=
  fun _ _ => show (0 : U32) = (0 : U8) ++ (0 : U8) ++ (0 : U8) ++ (0 : U8) by decide

def someStores : List Store :=
  [⟨.mem32, frameBufferBase, 0x11223344⟩, ⟨.mem16, frameBufferBase + 2, 0x5566⟩,
    ⟨.mem8, frameBufferBase + 1, 0x77⟩, ⟨.mem32, frameBufferBase - 8, 0x88888888⟩]

def nullStore : Store := ⟨.mem8, 0, 0x99⟩

theorem stores_hold_some :
    HoldsBytes ((someStores ++ [nullStore]).foldl Store.send fun _ => 0)
        ((someStores ++ [nullStore]).foldl Store.land fun _ => 0) ∧
      HoldsBytes (someStores.foldl Store.send fun _ => 0) (someStores.foldl Store.perform fun _ => 0) :=
  ⟨(stores_hold blank_holds _).1, (stores_hold blank_holds someStores).2 (by decide)⟩

example : ((someStores ++ [nullStore]).foldl Store.send fun _ => 0) 0 = 0x55667799 := by decide

end NiosSnake
