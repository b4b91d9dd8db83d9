import QueryBridge.Engine.Row

/-!
# The schema

The tables and views that every database has, in the order in which they are made, and the
statement that lists what a database holds.
-/

namespace QueryBridge

/-- What a relation of the database is. -/
inductive RelationKind where
  /-- A table. -/
  | table
  /-- A view. -/
  | view
deriving DecidableEq, Repr

namespace RelationKind

/-- The name of a kind. -/
def label : RelationKind → Text
  | .table => "TABLE"
  | .view => "VIEW"

/-- The kind that the engine's catalog names. -/
def ofCatalog? (name : Text) : Option RelationKind :=
  if name == "BASE TABLE" || name == "LOCAL TEMPORARY" then some .table
  else if name == "VIEW" then some .view
  else none

end RelationKind

/-- A relation of the schema. -/
structure RelationSchema where
  /-- Its name. -/
  name : Text
  /-- Its kind. -/
  kind : RelationKind
  /-- The statement that makes it if it is missing. -/
  ddl : Text
deriving DecidableEq, Repr

namespace Schema

/-- The statement that makes the table of page views and other events. -/
def eventsDdl : Text := "
        CREATE TABLE IF NOT EXISTS events (
            site_id UINTEGER NOT NULL,
            timestamp TIMESTAMP NOT NULL,
            session_id VARCHAR NOT NULL,
            user_id VARCHAR NOT NULL,
            hostname VARCHAR,
            pathname VARCHAR,
            querystring VARCHAR,
            page_title VARCHAR,
            referrer VARCHAR,
            channel VARCHAR,
            browser VARCHAR,
            browser_version VARCHAR,
            operating_system VARCHAR,
            operating_system_version VARCHAR,
            language VARCHAR,
            country VARCHAR,
            region VARCHAR,
            city VARCHAR,
            lat DOUBLE,
            lon DOUBLE,
            screen_width USMALLINT,
            screen_height USMALLINT,
            device_type VARCHAR,
            type VARCHAR NOT NULL DEFAULT 'pageview',
            event_name VARCHAR,
            props JSON
        )
    "

/-- The statement that makes the table of the results of uptime checks. -/
def uptimeEventsDdl : Text := "
        CREATE TABLE IF NOT EXISTS uptime_monitor_events (
            monitor_id UINTEGER NOT NULL,
            organization_id VARCHAR,
            timestamp TIMESTAMP NOT NULL,
            monitor_type VARCHAR NOT NULL,
            monitor_url VARCHAR,
            region VARCHAR NOT NULL DEFAULT 'local',
            status VARCHAR NOT NULL,
            status_code USMALLINT,
            response_time_ms UINTEGER,
            dns_time_ms UINTEGER,
            tcp_time_ms UINTEGER,
            tls_time_ms UINTEGER,
            ttfb_ms UINTEGER,
            transfer_time_ms UINTEGER,
            validation_errors VARCHAR[],
            response_headers JSON,
            response_size_bytes UINTEGER,
            error_message VARCHAR,
            error_type VARCHAR
        )
    "

/-- The statement that makes the table of the latest state of each uptime monitor. -/
def uptimeStatusDdl : Text := "
        CREATE TABLE IF NOT EXISTS uptime_monitor_status (
            monitor_id UINTEGER NOT NULL,
            organization_id VARCHAR,
            status VARCHAR NOT NULL,
            last_checked_at TIMESTAMP,
            last_status_change_at TIMESTAMP,
            consecutive_failures UINTEGER NOT NULL DEFAULT 0,
            consecutive_successes UINTEGER NOT NULL DEFAULT 0,
            uptime_24h DOUBLE,
            uptime_7d DOUBLE,
            uptime_30d DOUBLE,
            avg_response_time_24h DOUBLE,
            updated_at TIMESTAMP NOT NULL DEFAULT CAST(get_current_timestamp() AS TIMESTAMP)
        )
    "

/-- The statement that makes the view of the sessions, which reads the events. -/
def sessionsDdl : Text := "
        CREATE VIEW IF NOT EXISTS sessions AS
        SELECT
            site_id,
            session_id,
            arg_min(user_id, timestamp) AS user_id,
            min(timestamp) AS session_start,
            max(timestamp) AS session_end,
            date_diff('second', min(timestamp), max(timestamp)) AS duration_seconds,
            count(*) FILTER (WHERE type = 'pageview') AS pageviews,
            count(*) FILTER (WHERE type = 'custom_event') AS events,
            arg_min(pathname, timestamp) AS entry_page,
            arg_max(pathname, timestamp) AS exit_page,
            arg_min(referrer, timestamp) AS referrer,
            arg_min(channel, timestamp) AS channel,
            arg_min(country, timestamp) AS country,
            arg_min(browser, timestamp) AS browser,
            arg_min(operating_system, timestamp) AS operating_system,
            arg_min(device_type, timestamp) AS device_type
        FROM events
        GROUP BY site_id, session_id
    "

/-- The relations of the schema, a view after the tables that it reads. -/
def relations : List RelationSchema := [
  ⟨"events", .table, eventsDdl⟩,
  ⟨"uptime_monitor_events", .table, uptimeEventsDdl⟩,
  ⟨"uptime_monitor_status", .table, uptimeStatusDdl⟩,
  ⟨"sessions", .view, sessionsDdl⟩]

/-- The statement that lists the tables and views of a database by name. -/
def catalogSql : Text := "
            SELECT table_name AS name, table_type AS kind
            FROM information_schema.tables
            WHERE table_schema = 'main'
            ORDER BY table_name
            "

end Schema

/-- A table or view that a database holds. -/
structure Relation where
  /-- Its name. -/
  name : Text
  /-- Its kind. -/
  kind : RelationKind
deriving DecidableEq, Repr

namespace Relation

/-- The text of a field of a row. -/
def field? (name : Text) (row : Row) : Option Text :=
  match row.get? name with
  | some (.string s) => some s
  | _ => none

/-- The relation that a row of the catalog describes. -/
def ofRow? (row : Row) : Option Relation := do
  let name ← field? "name" row
  let kind ← field? "kind" row
  return ⟨name, ← RelationKind.ofCatalog? kind⟩

end Relation

end QueryBridge
