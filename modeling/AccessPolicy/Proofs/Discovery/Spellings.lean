import AccessPolicy.Proofs.Discovery.Observed
import AccessPolicy.Proofs.Discovery.Reload

/-!
# One endpoint in several spellings

The name space of an endpoint is told by its partition, or by its topic when it has no
partition. Both are cut to a code and a name (`Endpoint.codeAndName`), and an endpoint whose
code is known is classified by these two alone (`Synthesis.classify_of_code`). So a topic in a
partition and the same topic with the partition written before it are one endpoint, and the
requests of a service stand for the same object as its replies
(`Synthesis.classify_spelled_alike`).
-/

namespace AccessPolicy

namespace Discovery

/-! ## The code and the name of an endpoint -/

/-- A partition is a code and a name space, and the topic stands below the name space. -/
theorem Endpoint.codeAndName_partition (kind : EndpointKind) (space topic : String) :
    codeAndName ⟨topic, some (kind.code ++ space)⟩ = (kind.code, space ++ "/" ++ topic) := by
  have cut := splitCode?_code_append kind space
  have code : partitionCode (kind.code ++ space) = kind.code := by
    rw [partitionCode, cut]
    rfl
  have name : remap (kind.code ++ space) topic = space ++ "/" ++ topic := by
    rw [remap, cut]
    rfl
  exact Prod.ext code name

/-- Without a partition the topic itself is a code and a name. -/
theorem Endpoint.codeAndName_topic (kind : EndpointKind) (name : String) :
    codeAndName ⟨kind.code ++ name, none⟩ = (kind.code, name) := by
  show (splitCode? (kind.code ++ name)).getD _ = _
  rw [splitCode?_code_append]
  rfl

/-- An endpoint with a known code is classified by its code and its name. -/
theorem Synthesis.classify_of_code {config : Synthesis} {direction : Direction}
    {endpoint : Endpoint} {kind : EndpointKind} {name : String}
    (h : endpoint.codeAndName = (kind.code, name)) :
    config.classify direction endpoint = .ok (some (config.grantOf direction kind name)) := by
  rw [classify_eq, h, EndpointKind.ofCode?_code]

/-! ## The names of services -/

/-- What is appended to a name is dropped again. -/
theorem EndpointKind.stripSuffix_append {kind : EndpointKind} {suffix : String}
    (h : kind.suffix? = some suffix) (name : String) :
    kind.stripSuffix (name ++ suffix) = name := by
  have behind : suffix.toList.isSuffixOf (name ++ suffix).toList = true := by
    rw [String.toList_append]
    exact List.isSuffixOf_iff_suffix.2 (List.suffix_append _ _)
  have dropped : dropSuffix suffix.toList (name ++ suffix).toList = name.toList := by
    rw [dropSuffix, if_pos behind, String.toList_append, List.length_append,
      Nat.add_sub_cancel, List.take_left]
  rw [stripSuffix, h]
  show String.ofList (dropSuffix suffix.toList (name ++ suffix).toList) = name
  rw [dropped, String.ofList_toList]

/-- The same, with the names of services stripped. -/
def Synthesis.stripping (config : Synthesis) : Synthesis := { config with stripSuffixes := true }

/-- An endpoint of a service in a partition. -/
theorem Synthesis.classify_service (config : Synthesis) (kind : EndpointKind) {suffix : String}
    (h : kind.suffix? = some suffix) (space service : String) (direction : Direction) :
    config.stripping.classify direction ⟨service ++ suffix, some (kind.code ++ space)⟩ =
      .ok (some ⟨kind.objectKind, space ++ "/" ++ service, kind.permission direction⟩) := by
  have object : kind.stripSuffix (space ++ "/" ++ (service ++ suffix)) =
      space ++ "/" ++ service := by
    rw [← String.append_assoc]
    exact EndpointKind.stripSuffix_append h _
  rw [classify_of_code (Endpoint.codeAndName_partition kind space _)]
  show Except.ok (some (Grant.mk _ (kind.stripSuffix _) _)) = _
  rw [object]

/-- A topic in a partition is classified as the topic with the partition written before it.
The requests and the replies of a service stand for one object, which its clients call and
its servers execute. -/
theorem Synthesis.classify_spelled_alike (config : Synthesis) :
    (∀ (direction : Direction) (kind : EndpointKind) (space topic : String),
      config.classify direction ⟨topic, some (kind.code ++ space)⟩ =
        config.classify direction ⟨kind.code ++ space ++ "/" ++ topic, none⟩) ∧
    ∀ space service : String,
      (config.stripping.classify .publication ⟨service ++ "Request", some ("rq" ++ space)⟩ =
          .ok (some ⟨.rosService, space ++ "/" ++ service, .rosCall⟩) ∧
        config.stripping.classify .subscription ⟨service ++ "Reply", some ("rr" ++ space)⟩ =
          .ok (some ⟨.rosService, space ++ "/" ++ service, .rosCall⟩)) ∧
      config.stripping.classify .subscription ⟨service ++ "Request", some ("rq" ++ space)⟩ =
          .ok (some ⟨.rosService, space ++ "/" ++ service, .rosExecute⟩) ∧
        config.stripping.classify .publication ⟨service ++ "Reply", some ("rr" ++ space)⟩ =
          .ok (some ⟨.rosService, space ++ "/" ++ service, .rosExecute⟩) := by
  refine ⟨fun direction kind space topic => ?_, fun space service => ?_⟩
  · have whole : kind.code ++ space ++ "/" ++ topic = kind.code ++ (space ++ "/" ++ topic) := by
      simp only [String.append_assoc]
    rw [whole, classify_of_code (Endpoint.codeAndName_partition kind space topic),
      classify_of_code (Endpoint.codeAndName_topic kind _)]
  · have request := classify_service config .rosRequest rfl space service
    have reply := classify_service config .rosReply rfl space service
    exact ⟨⟨request .publication, reply .subscription⟩, request .subscription, reply .publication⟩

/-- A service in its name space, and one that is called like a suffix. -/
example : Synthesis.classify {} .publication ⟨"addRequest", some "rq/math"⟩ =
      .ok (some ⟨.rosService, "/math/add", .rosCall⟩) ∧
    Synthesis.classify {} .subscription ⟨"rr/Reply", none⟩ =
      .ok (some ⟨.rosService, "/", .rosCall⟩) := by
  decide

end Discovery

end AccessPolicy
