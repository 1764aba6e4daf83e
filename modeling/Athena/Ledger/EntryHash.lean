import Athena.Ledger.CanonicalJson
import Athena.Library.Framing

/-!
# Entry hashes

`computeEntryHash` joins five fields with NUL bytes and hashes the result.
SHA-256 is an arbitrary function from bytes to a digest; where a result needs
more of it, the byte strings that must not collide are listed.
-/

namespace Athena

/-- The keyword arguments of `compute_entry_hash`, in order. -/
structure EntryFields where
  prevHash : Option String
  payloadJson : String
  policyVersionGitSha : String
  eventType : String
  userId : Int
  deriving DecidableEq, Repr

namespace EntryFields

/-- The byte string handed to SHA-256. -/
def body (f : EntryFields) : Except PyErr Bytes := do
  let prev ← encodeAscii (f.prevHash.getD "")
  let policySha ← encodeAscii f.policyVersionGitSha
  return Framing.join 0 [prev, encodeUtf8 f.payloadJson, policySha, encodeUtf8 f.eventType,
    encodeUtf8 (strInt f.userId)]

/-- The five parts between the separators. -/
def parts (f : EntryFields) : List Bytes :=
  [encodeUtf8 (f.prevHash.getD ""), encodeUtf8 f.payloadJson, encodeUtf8 f.policyVersionGitSha,
    encodeUtf8 f.eventType, encodeUtf8 (strInt f.userId)]

/-- Both ASCII-encoded columns can be encoded. -/
def Encodable (f : EntryFields) : Prop :=
  IsAscii (f.prevHash.getD "") ∧ IsAscii f.policyVersionGitSha

instance (f : EntryFields) : Decidable f.Encodable := inferInstanceAs (Decidable (_ ∧ _))

/-- No hashed column contains U+0000. -/
def NulFree (f : EntryFields) : Prop :=
  Athena.NulFree (f.prevHash.getD "") ∧ Athena.NulFree f.payloadJson ∧
    Athena.NulFree f.policyVersionGitSha ∧ Athena.NulFree f.eventType

instance (f : EntryFields) : Decidable f.NulFree := inferInstanceAs (Decidable (_ ∧ _ ∧ _ ∧ _))

theorem body_eq (f : EntryFields) :
    f.body = if f.Encodable then .ok (Framing.join 0 f.parts) else .error .unicodeEncodeError := by
  unfold body encodeAscii Encodable
  by_cases h1 : IsAscii (f.prevHash.getD "") <;> by_cases h2 : IsAscii f.policyVersionGitSha <;>
    simp [h1, h2, parts, bind, Except.bind, pure, Except.pure]

theorem body_ok_iff {f : EntryFields} {b : Bytes} :
    f.body = .ok b ↔ f.Encodable ∧ Framing.join 0 f.parts = b := by
  rw [body_eq]
  split_ifs with h <;> simp [h]

theorem strInt_nulFree (n : Int) : Athena.NulFree (strInt n) :=
  fun h => absurd (CanonicalJson.strInt_printable n _ h) (by decide)

theorem NulFree.separatorFree {f : EntryFields} (h : f.NulFree) :
    Framing.SeparatorFree 0 f.parts := by
  obtain ⟨hprev, hpayload, hsha, hevent⟩ := h
  intro part hpart
  simp only [parts, List.mem_cons, List.not_mem_nil, or_false] at hpart
  rcases hpart with rfl | rfl | rfl | rfl | rfl <;> rw [zero_mem_encodeUtf8, not_not]
  · exact hprev
  · exact hpayload
  · exact hsha
  · exact hevent
  · exact strInt_nulFree _

theorem parts_eq_iff {f g : EntryFields} :
    f.parts = g.parts ↔ f.prevHash.getD "" = g.prevHash.getD "" ∧ f.payloadJson = g.payloadJson ∧
      f.policyVersionGitSha = g.policyVersionGitSha ∧ f.eventType = g.eventType ∧
      f.userId = g.userId := by
  simp [parts, strInt_injective.eq_iff]

/-- A predecessor column that is NULL or not empty, as every chained row has it. -/
def PrevSet (f : EntryFields) : Prop := f.prevHash ≠ some ""

instance (f : EntryFields) : Decidable f.PrevSet := inferInstanceAs (Decidable (_ ≠ _))

theorem getD_prevHash_inj {f g : EntryFields} (hf : f.PrevSet) (hg : g.PrevSet)
    (h : f.prevHash.getD "" = g.prevHash.getD "") : f.prevHash = g.prevHash := by
  unfold PrevSet at hf hg
  cases hp : f.prevHash <;> cases hq : g.prevHash <;> simp_all

/-- The hashed byte string of a NUL-free entry belongs to no other entry,
whatever the columns of the other one contain. -/
theorem eq_of_body_eq {f g : EntryFields} {b : Bytes} (hnul : f.NulFree) (hf : f.PrevSet)
    (hg : g.PrevSet) (hfb : f.body = .ok b) (hgb : g.body = .ok b) : f = g := by
  have hjoin : Framing.join 0 f.parts = Framing.join 0 g.parts :=
    (body_ok_iff.mp hfb).2.trans (body_ok_iff.mp hgb).2.symm
  have hlen : f.parts.length = g.parts.length := rfl
  have hparts : f.parts = g.parts := (Framing.join_eq_join_iff hnul.separatorFree hlen).mp hjoin
  obtain ⟨hprev, hpayload, hsha, hevent, huser⟩ := parts_eq_iff.mp hparts
  have hprev' := getD_prevHash_inj hf hg hprev
  cases f
  cases g
  simp_all

/-- A NUL-free entry and one with a NUL in some column are framed differently. -/
theorem body_ne_of_not_nulFree {f g : EntryFields} {b c : Bytes} (hf : f.NulFree)
    (hg : ¬ g.NulFree) (hfb : f.body = .ok b) (hgc : g.body = .ok c) : b ≠ c := by
  intro hbc
  have hjoin : Framing.join 0 f.parts = Framing.join 0 g.parts :=
    (body_ok_iff.mp hfb).2.trans (hbc.trans (body_ok_iff.mp hgc).2.symm)
  have hlen : f.parts.length = g.parts.length := rfl
  have hfree := hf.separatorFree.of_join_eq hlen hjoin
  have hpart : ∀ s, encodeUtf8 s ∈ g.parts → Athena.NulFree s := by
    intro s hs
    have hzero := hfree _ hs
    rwa [zero_mem_encodeUtf8, not_not] at hzero
  exact hg ⟨hpart _ (by simp [parts]), hpart _ (by simp [parts]), hpart _ (by simp [parts]),
    hpart _ (by simp [parts])⟩

end EntryFields

/-- The hashed byte string is unambiguous: canonical JSON is printable ASCII and has no NUL,
NUL-free entries have equal bytes only if they are equal, and no entry with a NUL in a column
has the bytes of a NUL-free one. -/
theorem hashed_bytes_unambiguous :
    (∀ (payload : PyValue) (text : String), canonicalJson payload = .ok text →
      IsAscii text ∧ NulFree text) ∧
    (∀ (f g : EntryFields) (b c : Bytes), f.NulFree → g.NulFree → f.PrevSet → g.PrevSet →
      f.body = .ok b → g.body = .ok c → (b = c ↔ f = g)) ∧
    (∀ (f g : EntryFields) (b c : Bytes), f.NulFree → ¬ g.NulFree →
      f.body = .ok b → g.body = .ok c → b ≠ c) := by
  refine ⟨?_, ?_, ?_⟩
  · intro payload text h
    have hprintable := canonicalJson_printable h
    exact ⟨fun c hc => lt_trans (hprintable c hc).2 (by decide), canonicalJson_nulFree h⟩
  · intro f g b c hf _ hfp hgp hfb hgc
    constructor
    · rintro rfl
      exact EntryFields.eq_of_body_eq hf hfp hgp hfb hgc
    · rintro rfl
      exact Except.ok.inj (hfb.symm.trans hgc)
  · intro f g b c hf hg hfb hgc
    exact EntryFields.body_ne_of_not_nulFree hf hg hfb hgc

/-- Two entries that differ in the sign of their `user_id`, and one that hides a separator
in its event type. -/
theorem hashed_bytes_unambiguous_sign :
    (Framing.join 0 (EntryFields.parts ⟨none, "1", "ab", "genesis", 1⟩) =
        Framing.join 0 (EntryFields.parts ⟨none, "1", "ab", "genesis", -1⟩) ↔
      (⟨none, "1", "ab", "genesis", 1⟩ : EntryFields) = ⟨none, "1", "ab", "genesis", -1⟩) ∧
    Framing.join 0 (EntryFields.parts ⟨none, "1", "ab", "genesis", 1⟩) ≠
      Framing.join 0 (EntryFields.parts ⟨none, "1", "ab", "gene\x00sis", 1⟩) := by
  refine ⟨hashed_bytes_unambiguous.2.1 _ _ _ _ (by decide) (by decide) (by decide) (by decide)
      (EntryFields.body_ok_iff.mpr ⟨by decide, rfl⟩)
      (EntryFields.body_ok_iff.mpr ⟨by decide, rfl⟩),
    hashed_bytes_unambiguous.2.2 _ _ _ _ (by decide) (by decide)
      (EntryFields.body_ok_iff.mpr ⟨by decide, rfl⟩)
      (EntryFields.body_ok_iff.mpr ⟨by decide, rfl⟩)⟩

section Hash

variable (sha256 : Bytes → Bytes)

def computeEntryHash (f : EntryFields) : Except PyErr String := do
  let body ← f.body
  return hexdigest (sha256 body)

/-- No two distinct byte strings of the set have the same digest. -/
def CollisionFree (hashed : Set Bytes) : Prop := Set.InjOn sha256 hashed

variable {sha256}

theorem computeEntryHash_eq (f : EntryFields) :
    computeEntryHash sha256 f =
      if f.Encodable then .ok (hexdigest (sha256 (Framing.join 0 f.parts)))
      else .error .unicodeEncodeError := by
  unfold computeEntryHash
  rw [EntryFields.body_eq]
  split_ifs <;> rfl

theorem computeEntryHash_ok_iff {f : EntryFields} {h : String} :
    computeEntryHash sha256 f = .ok h ↔ ∃ b, f.body = .ok b ∧ hexdigest (sha256 b) = h := by
  unfold computeEntryHash
  cases hb : f.body with
  | error e => simp [bind, Except.bind]
  | ok b => simp [bind, Except.bind, pure, Except.pure]

theorem computeEntryHash_isOk_iff {f : EntryFields} :
    (∃ h, computeEntryHash sha256 f = .ok h) ↔ f.Encodable := by
  rw [computeEntryHash_eq]
  split_ifs with h <;> simp [h]

theorem isAscii_of_computeEntryHash {f : EntryFields} {h : String}
    (hh : computeEntryHash sha256 f = .ok h) : IsAscii h := by
  obtain ⟨b, -, rfl⟩ := computeEntryHash_ok_iff.mp hh
  exact hexdigest_isAscii _

theorem ne_empty_of_computeEntryHash (hdigest : ∀ b, sha256 b ≠ []) {f : EntryFields} {h : String}
    (hh : computeEntryHash sha256 f = .ok h) : h ≠ "" := by
  obtain ⟨b, -, rfl⟩ := computeEntryHash_ok_iff.mp hh
  exact fun he => hdigest b (hexdigest_eq_empty_iff.mp he)

/-- Without a collision among the hashed strings, an entry hash determines its body. -/
theorem body_eq_of_computeEntryHash_eq {hashed : Set Bytes} (hcf : CollisionFree sha256 hashed)
    {f g : EntryFields} {h : String} (hf : computeEntryHash sha256 f = .ok h)
    (hg : computeEntryHash sha256 g = .ok h) (hfm : ∀ b, f.body = .ok b → b ∈ hashed)
    (hgm : ∀ b, g.body = .ok b → b ∈ hashed) : ∃ b, f.body = .ok b ∧ g.body = .ok b := by
  obtain ⟨b, hb, hbh⟩ := computeEntryHash_ok_iff.mp hf
  obtain ⟨c, hc, hch⟩ := computeEntryHash_ok_iff.mp hg
  have hdigest : sha256 b = sha256 c := hexdigest_injective (hbh.trans hch.symm)
  have hbc : b = c := hcf (hfm b hb) (hgm c hc) hdigest
  exact ⟨b, hb, hbc ▸ hc⟩

end Hash

end Athena
