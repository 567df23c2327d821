import SqlMigration.Message
import SqlMigration.Text.Codes

/-!
# Conversions

The pairs of a source dialect and the target dialect that a job can be run for.
Each has the name by which a settings file asks for it and the dialect message
that a job request carries.
-/

set_option autoImplicit false

namespace SqlMigration

inductive Conversion where
  | azureSynapse
  | bteq
  | hiveQL
  | mySQL
  | netezza
  | oracle
  | presto
  | redshift
  | snowflake
  | sparkSQL
  | teradata
  | vertica
  | sqlServer
  deriving DecidableEq, Repr

namespace Conversion

def all : List Conversion :=
  [.azureSynapse, .bteq, .hiveQL, .mySQL, .netezza, .oracle, .presto, .redshift, .snowflake,
    .sparkSQL, .teradata, .vertica, .sqlServer]

def source : Conversion → String
  | .azureSynapse => "AzureSynapse"
  | .bteq => "Bteq"
  | .hiveQL => "HiveQL"
  | .mySQL => "MySQL"
  | .netezza => "Netezza"
  | .oracle => "Oracle"
  | .presto => "Presto"
  | .redshift => "Redshift"
  | .snowflake => "Snowflake"
  | .sparkSQL => "SparkSQL"
  | .teradata => "Teradata"
  | .vertica => "Vertica"
  | .sqlServer => "SQLServer"

def name (c : Conversion) : String := "Translation_" ++ c.source ++ "2BQ"

def ofName? (s : Text) : Option Conversion := all.find? (fun c => (c.name : Text) = s)

def dialect : Conversion → Message
  | .azureSynapse => [("azure_synapse_dialect", .record [])]
  | .bteq => [("teradata_dialect", .record [("mode", .symbol "BTEQ")])]
  | .hiveQL => [("hiveql_dialect", .record [])]
  | .mySQL => [("mysql_dialect", .record [])]
  | .netezza => [("netezza_dialect", .record [])]
  | .oracle => [("oracle_dialect", .record [])]
  | .presto => [("presto_dialect", .record [])]
  | .redshift => [("redshift_dialect", .record [])]
  | .snowflake => [("snowflake_dialect", .record [])]
  | .sparkSQL => [("sparksql_dialect", .record [])]
  | .teradata => [("teradata_dialect", .record [("mode", .symbol "SQL")])]
  | .vertica => [("vertica_dialect", .record [])]
  | .sqlServer => [("sql_server_dialect", .record [])]

end Conversion

end SqlMigration
