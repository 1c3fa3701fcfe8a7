import WhaleMas.AuditLog

/-!
What an accepting verification says about the log: its last hash binds every event before
it, and rearranging its events is detected.
-/

namespace WhaleMas.AuditVerify

open WhaleMas.JsonText WhaleMas.Models WhaleMas.HashChain WhaleMas.AuditLog

lemma getLast_eventHash {l : List AuditEvent} (hl : l ≠ []) :
    lastHash chain none l = some (l.getLast hl).eventHash := by
  rw [lastHash_eq_getLast?, List.getLast?_eq_some_getLast hl]
  rfl

/-- Distinct hashes come from distinct materials. A linked log whose hashes are pairwise
distinct therefore shows no collision. -/
lemma injOn_materials {l : List AuditEvent} (hl : Linked chain none l)
    (hnd : (l.map AuditEvent.eventHash).Nodup) : Set.InjOn sha256Text (materials l) := by
  have hhash : ∀ e ∈ l, sha256Text (material e.previousHash (eventContent e)) = e.eventHash := by
    intro e he
    obtain ⟨p, t, rfl⟩ := List.append_of_mem he
    have hfits := ((linked_append chain none p (e :: t)).mp hl).2.1
    have hprev : e.previousHash = lastHash chain none p := hfits.1
    rw [hprev]
    exact hfits.2.symm
  rintro s ⟨e, he, rfl⟩ t ⟨f, hf, rfl⟩ h
  rw [hhash e he, hhash f hf] at h
  rw [List.inj_on_of_nodup_map hnd he hf h]

/-- **The canonical text is a canonical form.** Two contents have one text exactly when they
are equal as JSON values, up to the order of the keys at every level. The text starts with a
brace, so that a hexadecimal hash put before it can be told from it. -/
theorem canonicalJson_canonical :
    (∀ c d : Dict, canonicalJson c = canonicalJson d ↔ Same c.toJson d.toJson) ∧
    (∀ c : Dict, (canonicalJson c).toList.head? = some '{') ∧
    (∀ (p q : Option String) (c d : Dict), IsHex p → IsHex q →
      (material p c = material q d ↔ p = q ∧ Same c.toJson d.toJson)) := by
  refine ⟨fun c d => canonicalJson_inj, fun c => ?_, fun p q c d hp hq => ?_⟩
  · obtain ⟨t, ht⟩ := canonicalJson_head c
    rw [ht]
    rfl
  · constructor
    · exact material_hex_inj hp hq
    · rintro ⟨rfl, hsame⟩
      rw [material, material, canonicalJson_inj.mpr hsame]

/-- **The last hash binds the whole log.** Two accepted logs with the same last hash agree
event by event, and of the lists made of the events of an accepted log exactly its prefixes
are accepted. -/
theorem lastHash_binds :
    (∀ (l m : List AuditEvent) (hl : l ≠ []) (hm : m ≠ []),
      (verify l).valid = true → (verify m).valid = true →
      Set.InjOn sha256Text (materials l ∪ materials m) →
      (l.getLast hl).eventHash = (m.getLast hm).eventHash →
      l.length = m.length ∧ List.Forall₂ (fun e f => e.previousHash = f.previousHash ∧
        e.eventHash = f.eventHash ∧ SameContent e f) l m) ∧
    (∀ l m : List AuditEvent, (verify l).valid = true → Set.InjOn sha256Text (materials l) →
      m ⊆ l → ((verify m).valid = true ↔ m <+: l)) := by
  constructor
  · intro l m hl hm hvl hvm hinj hlast
    rw [verify_valid] at hvl hvm
    have hh : lastHash chain none l = lastHash chain none m := by
      rw [getLast_eventHash hl, getLast_eventHash hm, hlast]
    have hagree := linked_binding hvl hvm (binds_of_injOn hvl hvm hinj) hh
    exact ⟨hagree.length_eq, hagree⟩
  · intro l m hvl hinj hsub
    rw [verify_valid] at hvl ⊢
    have hb := binds_of_injOn hvl hvl (by rwa [Set.union_self])
    exact linked_iff_prefix hvl hb hsub

section Example

def sampleArgs (d : Dict) : AppendArgs where
  caseId := 1
  eventType := .caseCreated
  resourceType := "case"
  operation := "create"
  resourceId := none
  actorId := none
  inputHash := none
  outputHash := none
  metadata := some d

def dictAB : Dict := ⟨[("a", .int 1), ("b", .null)], by simp [WF, WFMembers]⟩
def dictBA : Dict := ⟨[("b", .null), ("a", .int 1)], by simp [WF, WFMembers]⟩

/-- The text of no content is that of another with a hash put before it. -/
theorem canonicalJson_canonical_hash :
    material none dictAB ≠ material (some "ba7816bf") dictBA := by
  intro h
  have hnone : IsHex none := fun s hs => by cases hs
  have hsome : IsHex (some "ba7816bf") := by
    rintro s hs
    rw [← Option.some.inj hs]
    exact ⟨by simp, by simp [Sha256.hexDigits]⟩
  have := (canonicalJson_canonical.2.2 none (some "ba7816bf") dictAB dictBA hnone hsome).mp h
  exact absurd this.1 (by simp)

/-- What is hashed for an event of a sample log, where its sorted metadata is given. -/
def sampleText (previous : String) (id : Uuid) (metadata : Json) : List Char :=
  previous.toList ++ render (.obj [("actor_id", .null), ("case_id", .str (Uuid.str 1)),
    ("created_at", .str noon.isoformat), ("event_type", .str "CASE_CREATED"),
    ("id", .str id.str), ("input_hash", .null), ("metadata_json", metadata),
    ("operation", .str "create"), ("output_hash", .null), ("resource_id", .null),
    ("resource_type", .str "case")])

def sampleHash (previous : String) (id : Uuid) (metadata : Json) : String :=
  Sha256.hexdigest ((sampleText previous id metadata).flatMap String.utf8EncodeChar)

lemma material_newEvent (previous : Option AuditEvent) (d : Dict) (id : Uuid) :
    material (newEvent previous (sampleArgs d) id noon).previousHash
        (eventContent (newEvent previous (sampleArgs d) id noon)) =
      String.ofList (sampleText ((previous.map AuditEvent.eventHash).getD "") id
        (sortKeys d.toJson)) := by
  simp [newEvent, sampleArgs, sampleText, material, canonicalJson, canonical, eventContent,
    Dict.toJson, sortKeys, sortValues, sortMembers, optStr, AuditEventType.value,
    List.mergeSort, String.ofList_append]

lemma eventHash_newEvent (previous : Option AuditEvent) (d : Dict) (id : Uuid) :
    (newEvent previous (sampleArgs d) id noon).eventHash =
      sampleHash ((previous.map AuditEvent.eventHash).getD "") id (sortKeys d.toJson) := by
  refine (congrArg sha256Text (material_newEvent previous d id)).trans ?_
  simp [sha256Text, sampleHash, List.utf8Encode]

lemma sortKeys_dictAB : sortKeys dictAB.toJson = dictAB.toJson := by
  simp [dictAB, Dict.toJson, sortKeys, sortValues, sortMembers, List.mergeSort]

lemma sortKeys_dictBA : sortKeys dictBA.toJson = dictAB.toJson := by
  simp [dictAB, dictBA, Dict.toJson, sortKeys, sortValues, sortMembers, List.mergeSort]

/-- The order of the keys of the metadata changes nothing of the content. -/
lemma sameContent_newEvent {d d' : Dict} (h : sortKeys d.toJson = sortKeys d'.toJson)
    (previous : Option AuditEvent) (id : Uuid) :
    SameContent (newEvent previous (sampleArgs d) id noon)
      (newEvent previous (sampleArgs d') id noon) := by
  have hmat : material (newEvent previous (sampleArgs d) id noon).previousHash
        (eventContent (newEvent previous (sampleArgs d) id noon)) =
      material (newEvent previous (sampleArgs d') id noon).previousHash
        (eventContent (newEvent previous (sampleArgs d') id noon)) := by
    rw [material_newEvent, material_newEvent, h]
  have hlist := congrArg String.toList hmat
  rw [material, material, String.toList_append, String.toList_append] at hlist
  exact canonicalJson_inj.mp (String.toList_inj.mp (List.append_cancel_left hlist))

/-- The events of a log, each appended after the one before it, with the same metadata. -/
def sampleEvent (d : Dict) : ℕ → AuditEvent
  | 0 => newEvent none (sampleArgs d) 7 noon
  | n + 1 => newEvent (some (sampleEvent d n)) (sampleArgs d) (Fin.ofNat _ (8 + n)) noon

def sampleLog (d : Dict) (n : ℕ) : List AuditEvent := (List.range n).map (sampleEvent d)

lemma sampleEvent_mem {d : Dict} {i n : ℕ} (h : i < n) : sampleEvent d i ∈ sampleLog d n :=
  List.mem_map_of_mem (List.mem_range.mpr h)

lemma sampleLog_succ (d : Dict) (n : ℕ) :
    sampleLog d (n + 1) = sampleLog d n ++ [sampleEvent d n] := by
  simp [sampleLog, List.range_succ]

lemma sampleLog_linked (d : Dict) (n : ℕ) : Linked chain none (sampleLog d n) := by
  induction n with
  | zero => trivial
  | succ n ih =>
    rw [sampleLog_succ, linked_snoc]
    refine ⟨ih, ?_⟩
    cases n with
    | zero => exact ⟨rfl, rfl⟩
    | succ n =>
      rw [sampleLog_succ, lastHash_snoc]
      exact ⟨rfl, rfl⟩

/-- The order of the keys of the metadata changes nothing that is hashed. -/
lemma material_sampleEvent {d d' : Dict} (h : sortKeys d.toJson = sortKeys d'.toJson) (n : ℕ) :
    material (sampleEvent d n).previousHash (eventContent (sampleEvent d n)) =
      material (sampleEvent d' n).previousHash (eventContent (sampleEvent d' n)) := by
  induction n with
  | zero => rw [sampleEvent, sampleEvent, material_newEvent, material_newEvent, h]
  | succ n ih =>
    have hhash : (sampleEvent d n).eventHash = (sampleEvent d' n).eventHash := by
      cases n <;> exact congrArg sha256Text ih
    simp only [sampleEvent, material_newEvent, h, Option.map_some, hhash]

lemma sampleEvent_hash :
    (sampleEvent dictAB 0).eventHash =
      "80f437e2ebaf4dd0e57f8126fdd2c7eb26330fb62b9741a42970b146248cfbb9" ∧
    (sampleEvent dictAB 1).eventHash =
      "dcf9c17f86f0e0d5f3f914daef81b9bf501e483ed1d86efb96088fdfe866a168" ∧
    (sampleEvent dictAB 2).eventHash =
      "4665bd1ef3c7e29a121982b4eaa3817d1e18eb458aec6c19332d789606a15130" := by
  have h0 : (sampleEvent dictAB 0).eventHash =
      "80f437e2ebaf4dd0e57f8126fdd2c7eb26330fb62b9741a42970b146248cfbb9" := by
    rw [sampleEvent, eventHash_newEvent, sortKeys_dictAB]
    decide +kernel
  have h1 : (sampleEvent dictAB 1).eventHash =
      "dcf9c17f86f0e0d5f3f914daef81b9bf501e483ed1d86efb96088fdfe866a168" := by
    rw [sampleEvent, eventHash_newEvent, sortKeys_dictAB, Option.map_some, h0]
    decide +kernel
  refine ⟨h0, h1, ?_⟩
  rw [sampleEvent, eventHash_newEvent, sortKeys_dictAB, Option.map_some, h1]
  decide +kernel

lemma sampleLog_nodup : ((sampleLog dictAB 3).map AuditEvent.eventHash).Nodup := by
  obtain ⟨h0, h1, h2⟩ := sampleEvent_hash
  simp [sampleLog, List.range_succ, h0, h1, h2]

/-- Two logs of three events whose metadata list their keys in different orders. Of the
lists made of the events of the first, the one without its second event and the one with
the first two exchanged are not accepted. -/
theorem lastHash_binds_reordered_metadata :
    List.Forall₂ (fun e f => e.previousHash = f.previousHash ∧ e.eventHash = f.eventHash ∧
      SameContent e f) (sampleLog dictAB 3) (sampleLog dictBA 3) ∧
    (verify [sampleEvent dictAB 0, sampleEvent dictAB 1]).valid = true ∧
    (verify [sampleEvent dictAB 0, sampleEvent dictAB 2]).valid = false ∧
    (verify [sampleEvent dictAB 1, sampleEvent dictAB 0, sampleEvent dictAB 2]).valid = false := by
  have hvalid : ∀ d, (verify (sampleLog d 3)).valid = true := fun d =>
    (verify_valid _).mpr (sampleLog_linked d 3)
  have hinj := injOn_materials (sampleLog_linked dictAB 3) sampleLog_nodup
  have hkeys : sortKeys dictBA.toJson = sortKeys dictAB.toJson := by
    rw [sortKeys_dictBA, sortKeys_dictAB]
  have hmat : materials (sampleLog dictBA 3) = materials (sampleLog dictAB 3) := by
    simp [materials, sampleLog, material_sampleEvent hkeys]
  have hrearranged : ∀ m ⊆ sampleLog dictAB 3, ¬ m.map AuditEvent.id <+: [7, 8, 9] →
      (verify m).valid = false := fun m hm hids => Bool.eq_false_iff.mpr fun hv =>
    hids (((lastHash_binds.2 _ m (hvalid dictAB) hinj hm).mp hv).map AuditEvent.id)
  refine ⟨?_, ?_, ?_, ?_⟩
  · refine (lastHash_binds.1 _ _ (by simp [sampleLog]) (by simp [sampleLog]) (hvalid _)
      (hvalid _) ?_ (congrArg sha256Text (material_sampleEvent hkeys 2).symm)).2
    rwa [hmat, Set.union_self]
  · refine (lastHash_binds.2 _ _ (hvalid dictAB) hinj ?_).mpr ⟨_, rfl⟩
    simp [sampleEvent_mem]
  · exact hrearranged _ (by simp [sampleEvent_mem]) (by decide)
  · exact hrearranged _ (by simp [sampleEvent_mem]) (by decide)

end Example

end WhaleMas.AuditVerify
