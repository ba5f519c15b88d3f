import SuitePlan.Text.Blank

/-! The dialects of Gherkin: for each part of a document the keywords that may begin it. -/

namespace SuitePlan

namespace Gherkin

/-- Whether a keyword begins with a character that can be seen and does not begin a tag. -/
def isVisible (keyword : String) : Bool :=
  keyword.toList.head?.any fun c => !isBlank c && c ≠ '@'

/-- The keywords of a dialect. Earlier keywords of a list are tried first. A step keyword includes
the blank behind it, in dialects that write one. -/
structure Dialect where
  feature : List String
  background : List String
  rule : List String
  scenario : List String
  outline : List String
  examples : List String
  givenWords : List String
  whenWords : List String
  thenWords : List String
  andWords : List String
  butWords : List String
  visible : ∀ k ∈ feature, isVisible k := by decide
deriving DecidableEq, Repr

namespace Dialect

def english : Dialect where
  feature := ["Feature", "Business Need", "Ability"]
  background := ["Background"]
  rule := ["Rule"]
  scenario := ["Example", "Scenario"]
  outline := ["Scenario Outline", "Scenario Template"]
  examples := ["Examples", "Scenarios"]
  givenWords := ["* ", "Given "]
  whenWords := ["* ", "When "]
  thenWords := ["* ", "Then "]
  andWords := ["* ", "And "]
  butWords := ["* ", "But "]

def french : Dialect where
  feature := ["Fonctionnalité"]
  background := ["Contexte"]
  rule := ["Règle"]
  scenario := ["Exemple", "Scénario"]
  outline := ["Plan du scénario", "Plan du Scénario"]
  examples := ["Exemples"]
  givenWords := ["* ", "Soit ", "Sachant que ", "Sachant qu'", "Sachant ", "Etant donné que ",
    "Etant donné qu'", "Etant donné ", "Etant donnée ", "Etant donnés ", "Etant données ",
    "Étant donné que ", "Étant donné qu'", "Étant donné ", "Étant donnée ", "Étant donnés ",
    "Étant données "]
  whenWords := ["* ", "Quand ", "Lorsque ", "Lorsqu'"]
  thenWords := ["* ", "Alors ", "Donc "]
  andWords := ["* ", "Et que ", "Et qu'", "Et "]
  butWords := ["* ", "Mais que ", "Mais qu'", "Mais "]

def german : Dialect where
  feature := ["Funktionalität", "Funktion"]
  background := ["Grundlage", "Hintergrund", "Voraussetzungen", "Vorbedingungen"]
  rule := ["Rule", "Regel"]
  scenario := ["Beispiel", "Szenario"]
  outline := ["Szenariogrundriss", "Szenarien"]
  examples := ["Beispiele"]
  givenWords := ["* ", "Angenommen ", "Gegeben sei ", "Gegeben seien "]
  whenWords := ["* ", "Wenn "]
  thenWords := ["* ", "Dann "]
  andWords := ["* ", "Und "]
  butWords := ["* ", "Aber "]

def spanish : Dialect where
  feature := ["Característica", "Necesidad del negocio", "Requisito"]
  background := ["Antecedentes"]
  rule := ["Regla", "Regla de negocio"]
  scenario := ["Ejemplo", "Escenario"]
  outline := ["Esquema del escenario"]
  examples := ["Ejemplos"]
  givenWords := ["* ", "Dado ", "Dada ", "Dados ", "Dadas "]
  whenWords := ["* ", "Cuando "]
  thenWords := ["* ", "Entonces "]
  andWords := ["* ", "Y ", "E "]
  butWords := ["* ", "Pero "]

def italian : Dialect where
  feature := ["Funzionalità", "Esigenza di Business", "Abilità"]
  background := ["Contesto"]
  rule := ["Regola"]
  scenario := ["Esempio", "Scenario"]
  outline := ["Schema dello scenario"]
  examples := ["Esempi"]
  givenWords := ["* ", "Dato ", "Data ", "Dati ", "Date "]
  whenWords := ["* ", "Quando "]
  thenWords := ["* ", "Allora "]
  andWords := ["* ", "E "]
  butWords := ["* ", "Ma "]

def portuguese : Dialect where
  feature := ["Funcionalidade", "Característica", "Caracteristica"]
  background := ["Contexto", "Cenário de Fundo", "Cenario de Fundo", "Fundo"]
  rule := ["Regra"]
  scenario := ["Exemplo", "Cenário", "Cenario"]
  outline := ["Esquema do Cenário", "Esquema do Cenario", "Delineação do Cenário",
    "Delineacao do Cenario"]
  examples := ["Exemplos", "Cenários", "Cenarios"]
  givenWords := ["* ", "Dado ", "Dada ", "Dados ", "Dadas "]
  whenWords := ["* ", "Quando "]
  thenWords := ["* ", "Então ", "Entao "]
  andWords := ["* ", "E "]
  butWords := ["* ", "Mas "]

def japanese : Dialect where
  feature := ["フィーチャ", "機能"]
  background := ["背景"]
  rule := ["Rule"]
  scenario := ["シナリオ"]
  outline := ["シナリオアウトライン", "シナリオテンプレート", "テンプレ", "シナリオテンプレ"]
  examples := ["例", "サンプル"]
  givenWords := ["* ", "前提"]
  whenWords := ["* ", "もし"]
  thenWords := ["* ", "ならば"]
  andWords := ["* ", "かつ"]
  butWords := ["* ", "しかし", "但し", "ただし"]

def chineseSimplified : Dialect where
  feature := ["功能"]
  background := ["背景"]
  rule := ["Rule"]
  scenario := ["场景", "剧本"]
  outline := ["场景大纲", "剧本大纲"]
  examples := ["例子"]
  givenWords := ["* ", "假如", "假设", "假定"]
  whenWords := ["* ", "当"]
  thenWords := ["* ", "那么"]
  andWords := ["* ", "而且", "并且", "同时"]
  butWords := ["* ", "但是"]

def russian : Dialect where
  feature := ["Функция", "Функциональность", "Функционал", "Свойство"]
  background := ["Предыстория", "Контекст"]
  rule := ["Правило"]
  scenario := ["Пример", "Сценарий"]
  outline := ["Структура сценария", "Шаблон сценария"]
  examples := ["Примеры"]
  givenWords := ["* ", "Допустим ", "Дано ", "Пусть "]
  whenWords := ["* ", "Когда ", "Если "]
  thenWords := ["* ", "То ", "Затем ", "Тогда "]
  andWords := ["* ", "И ", "К тому же ", "Также "]
  butWords := ["* ", "Но ", "А ", "Иначе "]

def emoji : Dialect where
  feature := ["📚"]
  background := ["💤"]
  rule := ["Rule"]
  scenario := ["🥒", "📕"]
  outline := ["📖"]
  examples := ["📓"]
  givenWords := ["* ", "😐"]
  whenWords := ["* ", "🎬"]
  thenWords := ["* ", "🙏"]
  andWords := ["* ", "😂"]
  butWords := ["* ", "😔"]

def pirate : Dialect where
  feature := ["Ahoy matey!"]
  background := ["Yo-ho-ho"]
  rule := ["Rule"]
  scenario := ["Heave to"]
  outline := ["Shiver me timbers"]
  examples := ["Dead men tell no tales"]
  givenWords := ["* ", "Gangway! "]
  whenWords := ["* ", "Blimey! "]
  thenWords := ["* ", "Let go and haul "]
  andWords := ["* ", "Aye "]
  butWords := ["* ", "Avast! "]

def lolcat : Dialect where
  feature := ["OH HAI"]
  background := ["B4"]
  rule := ["Rule"]
  scenario := ["MISHUN"]
  outline := ["MISHUN SRSLY"]
  examples := ["EXAMPLZ"]
  givenWords := ["* ", "I CAN HAZ "]
  whenWords := ["* ", "WEN "]
  thenWords := ["* ", "DEN "]
  andWords := ["* ", "AN "]
  butWords := ["* ", "BUT "]

def formal : Dialect where
  feature := ["Section"]
  background := ["Context"]
  rule := ["Rule"]
  scenario := ["Proof", "Evidence"]
  outline := ["Demonstration"]
  examples := ["Examples"]
  givenWords := ["Given"]
  whenWords := ["When"]
  thenWords := ["Then"]
  andWords := ["*", "And"]
  butWords := ["But"]

/-- Some dialects by the name they have in a language comment. The grammar takes any other table, too. -/
def table : List (String × Dialect) := [
  ("en", english),
  ("fr", french),
  ("de", german),
  ("es", spanish),
  ("it", italian),
  ("pt", portuguese),
  ("ja", japanese),
  ("zh-CN", chineseSimplified),
  ("ru", russian),
  ("em", emoji),
  ("en-pirate", pirate),
  ("en-lol", lolcat),
  ("formal", formal)]

def ofName? (name : String) : Option Dialect := table.lookup name

/-- The keywords that end the description of a scenario, a background or a table of examples. -/
def blockWords (d : Dialect) : List String :=
  d.scenario ++ d.outline ++ d.givenWords ++ d.whenWords ++ d.thenWords ++ d.andWords ++ d.butWords

end Dialect

end Gherkin

end SuitePlan
