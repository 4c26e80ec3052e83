import Sirit.Stream

/- instructions/annotation.cpp, instructions/debug.cpp and the entry points, execution
   modes and variables of sirit.cpp. -/
namespace Sirit

/-- What a method gives back: the id of its `EndOp`, nothing, or one of its arguments. -/
inductive Returned where
  | endOp
  | nothing
  | argument (id : Id)

inductive AnnotationCall where
  | decorate (target : Id) (decoration : U32) (literals : List Literal)
  | memberDecorate (structureType : Id) (member : Literal) (decoration : U32)
      (literals : List Literal)

def AnnotationCall.emission : AnnotationCall → Emission
  | .decorate target decoration literals =>
      ⟨3 + literals.length, .op .opDecorate,
        [.id target, .enum decoration] ++ span .literal literals⟩
  | .memberDecorate structureType member decoration literals =>
      ⟨4 + literals.length, .op .opMemberDecorate,
        [.id structureType, .literal member, .enum decoration] ++ span .literal literals⟩

inductive DebugCall where
  | name (target : Id) (name : List U8)
  | memberName (type : Id) (member : U32) (name : List U8)
  | string (string : List U8)
  | opLine (file : Id) (line column : Literal)

def DebugCall.emission : DebugCall → Emission
  | .name target text => ⟨3 + wordsInString text, .op .opName, [.id target, .string text]⟩
  | .memberName type member text =>
      ⟨4 + wordsInString text, .op .opMemberName, [.id type, .u32 member, .string text]⟩
  | .string text => ⟨3 + wordsInString text, .bare .opString, [.string text]⟩
  | .opLine file line column =>
      ⟨4, .op .opLine, [.id file, .literal line, .literal column]⟩

def DebugCall.returned : DebugCall → Returned
  | .name target _ => .argument target
  | .memberName type _ _ => .argument type
  | .string _ => .endOp
  | .opLine _ _ _ => .endOp

def addEntryPoint (executionModel : U32) (entryPoint : Id) (name : List U8)
    (interfaces : List Id) : Emission :=
  ⟨4 + wordsInString name + interfaces.length, .op .opEntryPoint,
    [.enum executionModel, .id entryPoint, .string name] ++ span .id interfaces⟩

def addExecutionMode (entryPoint : Id) (mode : U32) (literals : List Literal) : Emission :=
  ⟨3 + literals.length, .op .opExecutionMode,
    [.id entryPoint, .enum mode] ++ span .literal literals⟩

/-- `AddLocalVariable` and `AddGlobalVariable` differ in the stream only. -/
def addVariable (resultType : Id) (storageClass : U32) (initializer : Option Id) : Emission :=
  ⟨5, .typed .opVariable resultType, [.enum storageClass] ++ optional .id initializer⟩

end Sirit
