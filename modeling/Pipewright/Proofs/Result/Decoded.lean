import Pipewright.Json.Reader
import Pipewright.Proofs.Entries
import Pipewright.Proofs.Success
import Pipewright.Result.Basic

/-! Results that are read from JSON values: no mapping within them repeats a key. -/
namespace Pipewright

namespace Json

theorem settleItems_eq (items : List Json) : settleItems items = items.map settle := by
  induction items with
  | nil => rfl
  | cons v items ih => rw [settleItems, ih, List.map_cons]

theorem settleMembers_eq (ms : List (String × Json)) :
    settleMembers [] ms = Entries.putAll (ms.map fun m => (m.1, m.2.settle)) := by
  have hfold : ∀ done, settleMembers done ms =
      ms.foldl (fun done m => Entries.put m.1 m.2.settle done) done := by
    induction ms with
    | nil => exact fun _ => rfl
    | cons m ms ih => exact fun done => ih (Entries.put m.1 m.2.settle done)
  rw [hfold, Entries.putAll, List.foldl_map]

theorem nodup_settleMembers (ms : List (String × Json)) :
    ((settleMembers [] ms).map Prod.fst).Nodup := by
  rw [settleMembers_eq]
  exact Entries.nodup_names_putAll _

theorem settled_of_mem_settleMembers {ms : List (String × Json)} {m : String × Json}
    (h : m ∈ settleMembers [] ms) : ∃ v, m.2 = settle v := by
  rw [settleMembers_eq] at h
  have hlast := Entries.getLast?_of_mem_putAll h
  obtain ⟨n, -, rfl⟩ := List.mem_map.1 (List.mem_of_mem_filter (List.mem_of_getLast? hlast))
  exact ⟨n.2, rfl⟩

end Json

namespace Result
variable {v : Result} {items : List Result} {es : List (String × Result)}

/-- A result that is read from a JSON value without repeated names. -/
def Decoded (v : Result) : Prop := ∃ j : Json, ofJson j.settle = .ok v

/-! Containers and their parts -/

theorem itemsOfJson_mem {js : List Json} (h : itemsOfJson js = .ok items) :
    ∀ v ∈ items, ∃ j ∈ js, ofJson j = .ok v := by
  induction js generalizing items with
  | nil =>
    cases h
    exact List.forall_mem_nil _
  | cons j js ih =>
    obtain ⟨w, hw, h⟩ := bind_ok h
    obtain ⟨ws, hws, h⟩ := bind_ok h
    cases h
    refine List.forall_mem_cons.2 ⟨⟨j, List.mem_cons_self, hw⟩, fun v hv => ?_⟩
    obtain ⟨k, hk, hkv⟩ := ih hws v hv
    exact ⟨k, List.mem_cons_of_mem j hk, hkv⟩

theorem entriesOfJson_mem {ms : List (String × Json)} (h : entriesOfJson ms = .ok es) :
    es.map Prod.fst = ms.map Prod.fst ∧ ∀ e ∈ es, ∃ m ∈ ms, ofJson m.2 = .ok e.2 := by
  induction ms generalizing es with
  | nil =>
    cases h
    exact ⟨rfl, List.forall_mem_nil _⟩
  | cons m ms ih =>
    obtain ⟨k, j⟩ := m
    obtain ⟨w, hw, h⟩ := bind_ok h
    obtain ⟨ws, hws, h⟩ := bind_ok h
    cases h
    obtain ⟨hnames, hvalues⟩ := ih hws
    refine ⟨congrArg (k :: ·) hnames, List.forall_mem_cons.2
      ⟨⟨(k, j), List.mem_cons_self, hw⟩, fun e he => ?_⟩⟩
    obtain ⟨n, hn, hne⟩ := hvalues e he
    exact ⟨n, List.mem_cons_of_mem _ hn, hne⟩

theorem ofJson_eq_sequence {j : Json} (h : ofJson j = .ok (.sequence items)) :
    ∃ js, j = .arr js ∧ itemsOfJson js = .ok items := by
  cases j with
  | arr js =>
    obtain ⟨ws, hws, h⟩ := bind_ok h
    cases h
    exact ⟨js, rfl, hws⟩
  | obj ms =>
    unfold ofJson at h
    split at h
    · split at h
      · split at h <;> cases h
      · split at h <;> obtain ⟨w, -, h⟩ := bind_ok h <;> cases h
    · obtain ⟨w, -, h⟩ := bind_ok h
      cases h
  | _ => cases h

theorem ofJson_eq_mapping {j : Json} (h : ofJson j = .ok (.mapping es)) :
    ∃ ms, j = .obj ms ∧ entriesOfJson ms = .ok es := by
  cases j with
  | arr js =>
    obtain ⟨ws, -, h⟩ := bind_ok h
    cases h
  | obj ms =>
    refine ⟨ms, rfl, ?_⟩
    unfold ofJson at h
    split at h
    · split at h
      · split at h <;> cases h
      · split at h
        · obtain ⟨w, -, h⟩ := bind_ok h
          cases h
        · obtain ⟨w, hw, h⟩ := bind_ok h
          cases h
          rw [entriesOfJson, hw]
          rfl
    · obtain ⟨ws, hws, h⟩ := bind_ok h
      cases h
      exact hws
  | _ => cases h

/-! Decoded results -/

theorem Decoded.item (h : (Result.sequence items).Decoded) (hv : v ∈ items) : v.Decoded := by
  obtain ⟨j, hj⟩ := h
  obtain ⟨js, hjs, hitems⟩ := ofJson_eq_sequence hj
  obtain ⟨k, hk, hkv⟩ := itemsOfJson_mem hitems v hv
  cases j with
  | arr is =>
    rw [Json.settle, Json.settleItems_eq] at hjs
    cases hjs
    obtain ⟨i, -, rfl⟩ := List.mem_map.1 hk
    exact ⟨i, hkv⟩
  | _ => cases hjs

theorem Decoded.members (h : (Result.mapping es).Decoded) :
    ∃ ms, entriesOfJson (Json.settleMembers [] ms) = .ok es := by
  obtain ⟨j, hj⟩ := h
  obtain ⟨ms, hms, hes⟩ := ofJson_eq_mapping hj
  cases j with
  | obj ns =>
    rw [Json.settle] at hms
    cases hms
    exact ⟨ns, hes⟩
  | _ => cases hms

theorem Decoded.nodup_keys (h : (Result.mapping es).Decoded) : (es.map Prod.fst).Nodup := by
  obtain ⟨ms, hms⟩ := h.members
  rw [(entriesOfJson_mem hms).1]
  exact Json.nodup_settleMembers ms

theorem Decoded.value {e : String × Result} (h : (Result.mapping es).Decoded) (he : e ∈ es) :
    e.2.Decoded := by
  obtain ⟨ms, hms⟩ := h.members
  obtain ⟨m, hm, hv⟩ := (entriesOfJson_mem hms).2 e he
  obtain ⟨j, hj⟩ := Json.settled_of_mem_settleMembers hm
  exact ⟨j, hj ▸ hv⟩

end Result
end Pipewright
